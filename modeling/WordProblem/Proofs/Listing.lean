import WordProblem.Expression
import WordProblem.Program.Grouping

/-!
Reading a listing back. An operator tells how many arguments follow it, so the listing of an
expression that fits ends by itself: no other expression has it, and none has a listing that it
begins. In the linear form it falls apart into operations in one way, the one that the check counts
down and that the cutting jumps along.
-/
namespace WordProblem

namespace Expression

def IsCall : Expression → Prop
  | .leaf _ => False
  | .call _ _ => True

theorem allFit_iff {c : Catalog} {admits : Token → Bool} {es : List Expression} :
    AllFit c admits es ↔ ∀ e ∈ es, Fits c admits e := by
  induction es with
  | nil => simp [AllFit]
  | cons e rest ih => simp [AllFit, ih]

theorem allFit_append {c : Catalog} {admits : Token → Bool} {es fs : List Expression} :
    AllFit c admits (es ++ fs) ↔ AllFit c admits es ∧ AllFit c admits fs := by
  simp only [allFit_iff, List.mem_append, or_imp, forall_and]

mutual

/-- The two expressions may be read under different sets of leaves. -/
theorem listing_unique {c : Catalog} {p q : Token → Bool} {r s : List Token} :
    (e f : Expression) → Fits c p e → Fits c q f → listing e ++ r = listing f ++ s →
      e = f ∧ r = s
  | .leaf t, .leaf u, _, _, same => by
    simp only [listing, List.cons_append, List.nil_append, List.cons.injEq] at same
    exact ⟨congrArg _ same.1, same.2⟩
  | .leaf t, .call _ _, fits, fits', same => by
    simp only [listing, List.cons_append, List.cons.injEq] at same
    have absent := fits.1
    rw [same.1, fits'.1] at absent
    cases absent
  | .call _ _, .leaf u, fits, fits', same => by
    simp only [listing, List.cons_append, List.cons.injEq] at same
    have absent := fits'.1
    rw [← same.1, fits.1] at absent
    cases absent
  | .call name es, .call other fs, fits, fits', same => by
    simp only [listing, List.cons_append, List.cons.injEq] at same
    obtain ⟨rfl, tail⟩ := same
    have count : es.length = fs.length := Option.some.inj (fits.1.symm.trans fits'.1)
    obtain ⟨rfl, rest⟩ := listings_unique es fs count fits.2 fits'.2 tail
    exact ⟨rfl, rest⟩

theorem listings_unique {c : Catalog} {p q : Token → Bool} {r s : List Token} :
    (es fs : List Expression) → es.length = fs.length → AllFit c p es → AllFit c q fs →
      listings es ++ r = listings fs ++ s → es = fs ∧ r = s
  | [], [], _, _, _, same => ⟨rfl, by simpa [listings] using same⟩
  | e :: es, f :: fs, count, fits, fits', same => by
    simp only [listings, List.append_assoc] at same
    obtain ⟨rfl, tail⟩ := listing_unique e f fits.1 fits'.1 same
    obtain ⟨rfl, rest⟩ := listings_unique es fs (Nat.succ.inj count) fits.2 fits'.2 tail
    exact ⟨rfl, rest⟩

end

theorem listing_injective {c : Catalog} {p q : Token → Bool} {e f : Expression}
    (fits : Fits c p e) (fits' : Fits c q f) (same : listing e = listing f) : e = f := by
  have padded : listing e ++ [] = listing f ++ [] := by rw [same]
  exact (listing_unique e f fits fits' padded).1

end Expression

namespace Program

theorem groups_unique {c : Catalog} {allowed other : Option ArgumentSet} {p q : Program}
    {tokens : List Token} (one : p.Groups c allowed tokens) (two : q.Groups c other tokens) :
    p = q := by
  have same : (Except.ok p : Except CutFault Program) = .ok q := by
    rw [← one.cutFrom 0, two.cutFrom 0]
  exact Except.ok.inj same

/-- The check accepts the listings that fall into operations which fit. Under no set these are
    the ones that grouping accepts. It then cuts to the end without a fault, and what it gives are
    the only operations whose listing this is. -/
theorem check_and_grouping_agree (c : Catalog) (allowed : Option ArgumentSet)
    (tokens : List Token) :
    (check c allowed tokens = .ok () ↔ ∃ p : Program, p.Groups c allowed tokens) ∧
      ((∃ p, ofTokens c tokens = .ok p) ↔ check c none tokens = .ok ()) ∧
      (check c none tokens = .ok () → ∀ fault, cutFrom c 0 tokens ≠ .error fault) ∧
      ∀ p, ofTokens c tokens = .ok p →
        p.Groups c none tokens ∧ (∀ q : Program, q.Groups c none tokens → q = p) ∧
          p.tokens = tokens ∧ ofTokens c p.tokens = .ok p := by
  refine ⟨check_eq_ok_iff, ?_, ?_, ?_⟩
  · rw [check_eq_ok_iff]
    constructor
    · rintro ⟨p, grouped⟩
      exact ⟨p, ofTokens_eq_ok_iff.mp grouped⟩
    · rintro ⟨p, groups⟩
      exact ⟨p, groups.ofTokens⟩
  · intro accepted fault
    exact cutFrom_ne_error accepted 0 fault
  · intro p grouped
    have groups := ofTokens_eq_ok_iff.mp grouped
    refine ⟨groups, ?_, groups.listing, ?_⟩
    · intro q other
      exact groups_unique other groups
    · rw [groups.listing, grouped]

end Program

end WordProblem
