import Mathlib.Data.List.Forall2
import Mathlib.Data.List.Nodup
import Mathlib.Data.String.Basic
import WordProblem.Catalog
import WordProblem.Proofs.Lines

/-!
What a catalog text says, line by line. A text is a catalog exactly if each of its lines that is
not blank says an operator with its arity and no two name the same operator; else the first line
that breaks a rule is the fault. A catalog written out in any order is read back.
-/
namespace WordProblem

namespace Catalog

theorem contains_iff {c : Catalog} {name : String} :
    c.contains name = true ↔ name ∈ c.entries.map Prod.fst := by
  simp [contains, arity?]

theorem entries_put {c : Catalog} {name : String} (fresh : name ∉ c.entries.map Prod.fst)
    (arity : ℕ) : (c.put name arity).entries = c.entries ++ [(name, arity)] := by
  have stays : c.entries.filter (fun entry => entry.1 != name) = c.entries := by
    rw [List.filter_eq_self]
    intro entry mem
    have other : entry.1 ≠ name := fun same => fresh (same ▸ List.mem_map_of_mem mem)
    simpa using other
  simp [put, stays]

theorem eq_of_entries {c d : Catalog} (same : c.entries = d.entries) : c = d := by
  cases c
  cases d
  simpa using same

/-- A positive decimal integer that fits 64 bits, with a plus sign or without. -/
structure IsArity (s : List Char) (n : ℕ) : Prop where
  written : ∃ digits, (s = digits ∨ s = '+' :: digits) ∧ Digits.isNumeric digits = true ∧
    Digits.value digits = n
  positive : 0 < n
  fits : n < 2 ^ 64

theorem word?_filter_eq_some_iff {digits : List Char} {n : ℕ} :
    (Digits.word? digits).filter (0 < ·) = some n ↔
      Digits.isNumeric digits = true ∧ Digits.value digits = n ∧ 0 < n ∧ n < 2 ^ 64 := by
  have limit : Digits.wordLimit = 2 ^ 64 := by decide
  rw [Option.filter_eq_some_iff, Digits.word?, limit]
  constructor
  · intro read
    obtain ⟨read, positive⟩ := read
    split at read
    · rename_i word
      cases read
      exact ⟨word.1, rfl, by simpa using positive, word.2⟩
    · cases read
  · intro word
    obtain ⟨numeric, value, positive, fits⟩ := word
    rw [if_pos ⟨numeric, by rwa [value]⟩, value]
    simpa using positive

theorem readArity?_eq_some_iff {s : List Char} {n : ℕ} :
    readArity? s = some n ↔ IsArity s n := by
  constructor
  · intro read
    unfold readArity? at read
    dsimp only at read
    split at read
    · rename_i rest
      obtain ⟨numeric, value, positive, fits⟩ := word?_filter_eq_some_iff.mp read
      exact ⟨⟨rest, .inr rfl, numeric, value⟩, positive, fits⟩
    · obtain ⟨numeric, value, positive, fits⟩ := word?_filter_eq_some_iff.mp read
      exact ⟨⟨s, .inl rfl, numeric, value⟩, positive, fits⟩
  · intro arity
    obtain ⟨digits, spelled, numeric, value⟩ := arity.written
    have word := word?_filter_eq_some_iff.mpr ⟨numeric, value, arity.positive, arity.fits⟩
    rcases spelled with plain | signed
    · rw [plain, readArity?]
      · exact word
      · intro rest signed
        simp [signed, Digits.isNumeric] at numeric
    · rw [signed]
      exact word

def nameOf (line : List Char) : List Char := Text.trim (line.takeWhile (· != '|'))

def valueOf (line : List Char) : List Char := Text.trim ((line.dropWhile (· != '|')).drop 1)

structure Declares (line : List Char) (entry : String × ℕ) : Prop where
  bar : '|' ∈ line
  named : nameOf line ≠ []
  name : entry.1 = String.ofList (nameOf line)
  arity : IsArity (valueOf line) entry.2

/-- A line that declares nothing. Without a name its arity does not matter. -/
inductive Breaks (number : ℕ) (line : List Char) : CatalogFault → Prop where
  | malformed (lacks : '|' ∉ line ∨ nameOf line = []) :
      Breaks number line (.malformedLine (String.ofList line) number)
  | arity (bar : '|' ∈ line) (named : nameOf line ≠ [])
      (unread : ∀ n, ¬ IsArity (valueOf line) n) :
      Breaks number line (.invalidArity (String.ofList (valueOf line)) number)

/-- A line that cannot follow those that declare the catalog. -/
inductive Stops (earlier : Catalog) (number : ℕ) (line : List Char) : CatalogFault → Prop where
  | broken {fault : CatalogFault} (breaks : Breaks number line fault) :
      Stops earlier number line fault
  | repeated {entry : String × ℕ} (declares : Declares line entry)
      (again : entry.1 ∈ earlier.entries.map Prod.fst) :
      Stops earlier number line (.duplicateOperator entry.1 number)

/-- The lines that are not blank declare what is added to the catalog, one entry each. -/
def Adds (c : Catalog) (ls : List (List Char)) (d : Catalog) : Prop :=
  ∃ new, d.entries = c.entries ++ new ∧ List.Forall₂ Declares (Text.filled ls) new

def Fails (c : Catalog) (number : ℕ) (ls : List (List Char)) (fault : CatalogFault) : Prop :=
  ∃ before line after d, ls = before ++ line :: after ∧ c.Adds before d ∧
    line.all Text.isBlank = false ∧ Stops d (number + before.length) line fault

theorem readLine_of_declares {line : List Char} {number : ℕ} {entry : String × ℕ}
    (declares : Declares line entry) : readLine line number = .ok entry := by
  have named : (nameOf line).isEmpty = false := by simpa using declares.named
  have arity := readArity?_eq_some_iff.mpr declares.arity
  rw [readLine, Text.cutAt_of_mem declares.bar]
  dsimp only
  rw [← nameOf, ← valueOf, named, arity, ← declares.name]
  rfl

theorem readLine_of_breaks {line : List Char} {number : ℕ} {fault : CatalogFault}
    (breaks : Breaks number line fault) : readLine line number = .error fault := by
  cases breaks with
  | malformed lacks =>
    by_cases bar : '|' ∈ line
    · have nameless := lacks.resolve_left (not_not_intro bar)
      rw [readLine, Text.cutAt_of_mem bar]
      dsimp only
      rw [← nameOf, nameless]
      rfl
    · rw [readLine, Text.cutAt_eq_none_iff.mpr bar]
  | arity bar named unread =>
    have nonempty : (nameOf line).isEmpty = false := by simpa using named
    have nothing : readArity? (valueOf line) = none := by
      rw [Option.eq_none_iff_forall_ne_some]
      intro n read
      exact unread n (readArity?_eq_some_iff.mp read)
    rw [readLine, Text.cutAt_of_mem bar]
    dsimp only
    rw [← nameOf, ← valueOf, nonempty, nothing]
    rfl

theorem declares_or_breaks (line : List Char) (number : ℕ) :
    (∃ entry, Declares line entry) ∨ ∃ fault, Breaks number line fault := by
  by_cases lacks : '|' ∉ line ∨ nameOf line = []
  · exact .inr ⟨_, .malformed lacks⟩
  · rw [not_or, not_not] at lacks
    by_cases unread : ∀ n, ¬ IsArity (valueOf line) n
    · exact .inr ⟨_, .arity lacks.1 lacks.2 unread⟩
    · obtain ⟨n, arity⟩ := not_forall_not.mp unread
      exact .inl ⟨(_, n), lacks.1, lacks.2, rfl, arity⟩

section Reading
variable {c d e : Catalog} {line : List Char} {ls : List (List Char)} {number : ℕ}

theorem adds_nil_iff : c.Adds [] d ↔ d = c := by
  constructor
  · intro adds
    obtain ⟨new, grown, declared⟩ := adds
    cases declared
    exact eq_of_entries (by simpa using grown)
  · intro same
    exact ⟨[], by simp [same], .nil⟩

theorem adds_blank_iff (blank : line.all Text.isBlank = true) :
    c.Adds (line :: ls) d ↔ c.Adds ls d := by
  simp [Adds, Text.filled, blank]

theorem adds_filled_iff (visible : line.all Text.isBlank = false) :
    c.Adds (line :: ls) d ↔ ∃ entry, Declares line entry ∧ entry.1 ∉ c.entries.map Prod.fst ∧
      (c.put entry.1 entry.2).Adds ls d := by
  have lines : Text.filled (line :: ls) = line :: Text.filled ls := by simp [Text.filled, visible]
  constructor
  · intro adds
    obtain ⟨new, grown, declared⟩ := adds
    rw [lines] at declared
    obtain ⟨entry, rest, declares, later, split⟩ := List.forall₂_cons_left_iff.mp declared
    -- no name stands twice in the catalog that comes out
    have fresh : entry.1 ∉ c.entries.map Prod.fst := by
      have distinct := d.distinct
      rw [grown, split, List.map_append, List.nodup_append] at distinct
      intro again
      exact distinct.2.2 _ again entry.1 (by simp) rfl
    refine ⟨entry, declares, fresh, rest, ?_, later⟩
    rw [entries_put fresh, grown, split, List.append_assoc, List.singleton_append]
  · intro step
    obtain ⟨entry, declares, fresh, rest, grown, later⟩ := step
    rw [entries_put fresh, List.append_assoc, List.singleton_append] at grown
    exact ⟨entry :: rest, grown, by rw [lines]; exact .cons declares later⟩

theorem adds_cons_iff : c.Adds (line :: ls) e ↔ ∃ d, c.Adds [line] d ∧ d.Adds ls e := by
  by_cases blank : line.all Text.isBlank = true
  · simp [adds_blank_iff blank, adds_nil_iff]
  · have visible := Bool.eq_false_iff.mpr blank
    simp only [adds_filled_iff visible, adds_nil_iff]
    constructor
    · intro first
      obtain ⟨entry, declares, fresh, later⟩ := first
      exact ⟨_, ⟨entry, declares, fresh, rfl⟩, later⟩
    · intro first
      obtain ⟨d, ⟨entry, declares, fresh, same⟩, later⟩ := first
      exact ⟨entry, declares, fresh, by rwa [← same]⟩

theorem readLines_step (adds : c.Adds [line] d) (ls : List (List Char)) :
    readLines c number (line :: ls) = readLines d (number + 1) ls := by
  rw [readLines, Text.trim_isEmpty]
  by_cases blank : line.all Text.isBlank = true
  · rw [adds_blank_iff blank, adds_nil_iff] at adds
    rw [if_pos blank, adds]
  · obtain ⟨entry, declares, fresh, same⟩ := (adds_filled_iff (Bool.eq_false_iff.mpr blank)).mp adds
    have absent : c.contains entry.1 = false := by rwa [← Bool.not_eq_true, contains_iff]
    simp [blank, readLine_of_declares declares, absent, adds_nil_iff.mp same]

theorem readLines_stop {fault : CatalogFault} (visible : line.all Text.isBlank = false)
    (stops : Stops c number line fault) (ls : List (List Char)) :
    readLines c number (line :: ls) = .error fault := by
  rw [readLines, Text.trim_isEmpty, visible]
  cases stops with
  | broken breaks => simp [readLine_of_breaks breaks]
  | repeated declares again => simp [readLine_of_declares declares, contains_iff.mpr again]

theorem adds_or_stops (c : Catalog) (number : ℕ) (line : List Char) :
    (∃ d, c.Adds [line] d) ∨
      line.all Text.isBlank = false ∧ ∃ fault, Stops c number line fault := by
  by_cases blank : line.all Text.isBlank = true
  · exact .inl ⟨c, (adds_blank_iff blank).mpr (adds_nil_iff.mpr rfl)⟩
  · have visible := Bool.eq_false_iff.mpr blank
    cases declares_or_breaks line number with
    | inl declared =>
      obtain ⟨entry, declares⟩ := declared
      by_cases again : entry.1 ∈ c.entries.map Prod.fst
      · exact .inr ⟨visible, _, .repeated declares again⟩
      · exact .inl ⟨_, (adds_filled_iff visible).mpr ⟨entry, declares, again, adds_nil_iff.mpr rfl⟩⟩
    | inr broken =>
      obtain ⟨fault, breaks⟩ := broken
      exact .inr ⟨visible, fault, .broken breaks⟩

theorem readLines_append (adds : c.Adds ls d) (after : List (List Char)) :
    readLines c number (ls ++ after) = readLines d (number + ls.length) after := by
  induction ls generalizing c number with
  | nil => rw [adds_nil_iff.mp adds]; rfl
  | cons line rest ih =>
    obtain ⟨next, step, later⟩ := adds_cons_iff.mp adds
    rw [List.cons_append, readLines_step step, ih later, List.length_cons, ← Nat.add_assoc,
      Nat.add_right_comm]

theorem readLines_of_adds (adds : c.Adds ls d) : readLines c number ls = .ok d := by
  have whole := @readLines_append c d ls number adds []
  rwa [List.append_nil] at whole

theorem readLines_of_fails {fault : CatalogFault} (fails : c.Fails number ls fault) :
    readLines c number ls = .error fault := by
  obtain ⟨before, line, after, d, split, adds, visible, stops⟩ := fails
  rw [split, readLines_append adds, readLines_stop visible stops]

theorem adds_or_fails (c : Catalog) (number : ℕ) (ls : List (List Char)) :
    (∃ d, c.Adds ls d) ∨ ∃ fault, c.Fails number ls fault := by
  induction ls generalizing c number with
  | nil => exact .inl ⟨c, adds_nil_iff.mpr rfl⟩
  | cons line rest ih =>
    cases adds_or_stops c number line with
    | inl accepted =>
      obtain ⟨next, step⟩ := accepted
      cases ih next (number + 1) with
      | inl all =>
        obtain ⟨d, later⟩ := all
        exact .inl ⟨d, adds_cons_iff.mpr ⟨next, step, later⟩⟩
      | inr failed =>
        obtain ⟨fault, before, last, after, d, split, adds, visible, stops⟩ := failed
        refine .inr ⟨fault, line :: before, last, after, d, by rw [split]; rfl, ?_, visible, ?_⟩
        · exact adds_cons_iff.mpr ⟨next, step, adds⟩
        · rwa [List.length_cons, ← Nat.add_assoc, Nat.add_right_comm]
    | inr stop =>
      obtain ⟨visible, fault, stops⟩ := stop
      exact .inr ⟨fault, [], line, rest, c, rfl, adds_nil_iff.mpr rfl, visible, stops⟩

theorem readLines_eq_ok_iff : readLines c number ls = .ok d ↔ c.Adds ls d := by
  constructor
  · intro read
    rcases adds_or_fails c number ls with ⟨e, adds⟩ | ⟨fault, fails⟩
    · rw [readLines_of_adds adds] at read
      cases read
      exact adds
    · rw [readLines_of_fails fails] at read
      cases read
  · exact readLines_of_adds

theorem readLines_eq_error_iff {fault : CatalogFault} :
    readLines c number ls = .error fault ↔ c.Fails number ls fault := by
  constructor
  · intro failed
    rcases adds_or_fails c number ls with ⟨e, adds⟩ | ⟨own, fails⟩
    · rw [readLines_of_adds adds] at failed
      cases failed
    · rw [readLines_of_fails fails] at failed
      cases failed
      exact fails
  · exact readLines_of_fails

end Reading

theorem adds_empty_iff {ls : List (List Char)} {c : Catalog} :
    empty.Adds ls c ↔ List.Forall₂ Declares (Text.filled ls) c.entries := by
  simp [Adds, empty]

theorem ofSource_eq_ok_iff {source : String} {c : Catalog} :
    ofSource source = .ok c ↔
      List.Forall₂ Declares (Text.filled (Text.lines source.toList)) c.entries := by
  rw [ofSource, readLines_eq_ok_iff, adds_empty_iff]

theorem ofSource_eq_error_iff {source : String} {fault : CatalogFault} :
    ofSource source = .error fault ↔
      ∃ before line after earlier,
        Text.lines source.toList = before ++ line :: after ∧
        List.Forall₂ Declares (Text.filled before) earlier.entries ∧
        line.all Text.isBlank = false ∧ Stops earlier (before.length + 1) line fault := by
  rw [ofSource, readLines_eq_error_iff]
  simp only [Fails, adds_empty_iff, Nat.add_comm 1]

theorem names_of_declares {ls : List (List Char)} {entries : List (String × ℕ)}
    (declared : List.Forall₂ Declares ls entries) :
    entries.map Prod.fst = (ls.map nameOf).map String.ofList := by
  induction declared with
  | nil => rfl
  | cons declares _ ih => rw [List.map_cons, ih, declares.name]; rfl

theorem nodup_of_declares {ls : List (List Char)} {entries : List (String × ℕ)}
    (declared : List.Forall₂ Declares ls entries) :
    (entries.map Prod.fst).Nodup ↔ (ls.map nameOf).Nodup := by
  rw [names_of_declares declared]
  exact List.nodup_map_iff fun _ _ => String.ofList_injective

theorem exists_declared {ls : List (List Char)} :
    (∃ entries, List.Forall₂ Declares ls entries) ↔
      ∀ line ∈ ls, '|' ∈ line ∧ nameOf line ≠ [] ∧ ∃ n, IsArity (valueOf line) n := by
  induction ls with
  | nil => exact ⟨by simp, fun _ => ⟨[], .nil⟩⟩
  | cons line rest ih =>
    rw [List.forall_mem_cons, ← ih]
    constructor
    · intro declared
      obtain ⟨entries, declared⟩ := declared
      obtain ⟨entry, more, declares, later, -⟩ := List.forall₂_cons_left_iff.mp declared
      exact ⟨⟨declares.bar, declares.named, entry.2, declares.arity⟩, more, later⟩
    · intro declared
      obtain ⟨⟨bar, named, n, arity⟩, more, later⟩ := declared
      exact ⟨(String.ofList (nameOf line), n) :: more, .cons ⟨bar, named, rfl, arity⟩ later⟩

theorem exists_ofSource_iff {source : String} :
    (∃ c, ofSource source = .ok c) ↔
      (∀ line ∈ Text.filled (Text.lines source.toList),
        '|' ∈ line ∧ nameOf line ≠ [] ∧ ∃ n, IsArity (valueOf line) n) ∧
      ((Text.filled (Text.lines source.toList)).map nameOf).Nodup := by
  rw [← exists_declared]
  constructor
  · intro read
    obtain ⟨c, read⟩ := read
    have declared := ofSource_eq_ok_iff.mp read
    exact ⟨⟨_, declared⟩, (nodup_of_declares declared).mp c.distinct⟩
  · intro lines
    obtain ⟨⟨entries, declared⟩, distinct⟩ := lines
    exact ⟨⟨entries, (nodup_of_declares declared).mpr distinct⟩, ofSource_eq_ok_iff.mpr declared⟩

theorem arity?_eq_some_iff {c : Catalog} {name : String} {arity : ℕ} :
    c.arity? name = some arity ↔ (name, arity) ∈ c.entries := by
  constructor
  · intro found
    obtain ⟨entry, first, second⟩ := Option.map_eq_some_iff.mp found
    have same : entry.1 = name := by simpa using List.find?_some first
    rw [← same, ← second]
    exact List.mem_of_find?_eq_some first
  · intro mem
    have known : (c.entries.find? fun entry => entry.1 == name).isSome = true := by
      rw [List.find?_isSome]
      exact ⟨_, mem, by simp⟩
    obtain ⟨entry, first⟩ := Option.isSome_iff_exists.mp known
    have same : entry.1 = name := by simpa using List.find?_some first
    have own : entry = (name, arity) :=
      List.inj_on_of_nodup_map c.distinct (List.mem_of_find?_eq_some first) mem same
    rw [arity?, first, own]
    rfl

theorem arity?_of_perm {c d : Catalog} (perm : c.entries.Perm d.entries) (name : String) :
    c.arity? name = d.arity? name := by
  ext arity
  rw [arity?_eq_some_iff, arity?_eq_some_iff, perm.mem_iff]

theorem pairwise_sorted (c : Catalog) : c.sorted.Pairwise fun a b => a.1 ≤ b.1 := by
  let le := fun a b : String × ℕ => decide (a.1 ≤ b.1)
  have trans : ∀ x y z, le x y = true → le y z = true → le x z = true := by
    intro x y z below above
    simp only [le, decide_eq_true_eq] at below above ⊢
    exact String.le_trans below above
  have total : ∀ x y, (le x y || le y x) = true := by
    intro x y
    simpa [le] using String.le_total x.1 y.1
  exact (List.pairwise_mergeSort trans total c.entries).imp of_decide_eq_true

theorem same_iff_perm {c d : Catalog} : c.same d = true ↔ c.entries.Perm d.entries := by
  have left : c.sorted.Perm c.entries := List.mergeSort_perm c.entries _
  have right : d.sorted.Perm d.entries := List.mergeSort_perm d.entries _
  rw [same, beq_iff_eq]
  constructor
  · intro same
    exact left.symm.trans (same ▸ right)
  · intro perm
    apply List.Perm.eq_of_pairwise _ c.pairwise_sorted d.pairwise_sorted
      (left.trans (perm.trans right.symm))
    intro a b inside other below above
    have own : b ∈ c.entries := perm.mem_iff.mpr (right.mem_iff.mp other)
    exact List.inj_on_of_nodup_map c.distinct (left.mem_iff.mp inside) own
      (String.le_antisymm below above)

structure Plain (entry : String × ℕ) : Prop where
  named : entry.1.toList ≠ []
  tight : Text.Tight entry.1.toList
  noBar : '|' ∉ entry.1.toList
  noFeed : '\n' ∉ entry.1.toList
  positive : 0 < entry.2
  fits : entry.2 < 2 ^ 64

def lineOf (entry : String × ℕ) : List Char :=
  entry.1.toList ++ [' '] ++ '|' :: ([' '] ++ Digits.text entry.2)

def listing (entries : List (String × ℕ)) : String :=
  String.ofList (entries.flatMap fun entry => lineOf entry ++ ['\n'])

theorem Declares.plain {line : List Char} {entry : String × ℕ} (declares : Declares line entry)
    (whole : '\n' ∉ line) : Plain entry := by
  have name : entry.1.toList = nameOf line := by rw [declares.name, String.toList_ofList]
  constructor
  · rw [name]
    exact declares.named
  · rw [name]
    exact Text.tight_trim _
  · rw [name]
    intro bar
    have inside := List.mem_takeWhile_imp (Text.mem_of_mem_trim bar)
    simp at inside
  · rw [name]
    intro feed
    exact whole ((List.takeWhile_subset _) (Text.mem_of_mem_trim feed))
  · exact declares.arity.positive
  · exact declares.arity.fits

theorem noBar_before {entry : String × ℕ} (plain : Plain entry) :
    ∀ c ∈ entry.1.toList ++ [' '], (c != '|') = true := by
  intro c mem
  rw [List.mem_append, List.mem_singleton] at mem
  cases mem with
  | inl inside =>
    have other : c ≠ '|' := fun same => plain.noBar (same ▸ inside)
    simpa using other
  | inr space => simp [space]

theorem nameOf_lineOf {entry : String × ℕ} (plain : Plain entry) :
    nameOf (lineOf entry) = entry.1.toList := by
  rw [nameOf, lineOf, List.takeWhile_append_of_pos (noBar_before plain),
    List.takeWhile_cons_of_neg (by simp), List.append_nil]
  exact @Text.trim_append [] _ _ (by simp) plain.tight Text.isBlank_space

theorem tight_text (n : ℕ) : Text.Tight (Digits.text n) := by
  have digits := (Digits.isNumeric_iff.mp (Digits.isNumeric_text n)).2
  constructor
  · intro c first
    exact Text.isBlank_of_isDigit (digits c (List.mem_of_mem_head? first))
  · intro c last
    exact Text.isBlank_of_isDigit (digits c (List.mem_of_mem_getLast? last))

theorem valueOf_lineOf {entry : String × ℕ} (plain : Plain entry) :
    valueOf (lineOf entry) = Digits.text entry.2 := by
  have behind := @Text.trim_append [' '] _ [] Text.isBlank_space (tight_text entry.2) (by simp)
  rw [List.append_nil] at behind
  rw [valueOf, lineOf, List.dropWhile_append_of_pos (noBar_before plain)]
  exact behind

theorem Plain.declares {entry : String × ℕ} (plain : Plain entry) :
    Declares (lineOf entry) entry := by
  constructor
  · simp [lineOf]
  · rw [nameOf_lineOf plain]
    exact plain.named
  · rw [nameOf_lineOf plain, String.ofList_toList]
  · rw [valueOf_lineOf plain]
    refine ⟨⟨_, .inl rfl, ?_, ?_⟩, plain.positive, plain.fits⟩
    · exact Digits.isNumeric_text entry.2
    · exact Digits.value_text entry.2

theorem lines_listing {entries : List (String × ℕ)} (plain : ∀ entry ∈ entries, Plain entry) :
    Text.lines (listing entries).toList = entries.map lineOf := by
  rw [listing, String.toList_ofList]
  induction entries with
  | nil => rfl
  | cons entry rest ih =>
    rw [List.forall_mem_cons] at plain
    obtain ⟨nonempty, digits⟩ := Digits.isNumeric_iff.mp (Digits.isNumeric_text entry.2)
    have whole : '\n' ∉ lineOf entry := by
      simp [lineOf, plain.1.noFeed, Digits.not_mem_of_digits (c := '\n') (by decide) digits]
    have ends : '\r' ∉ (lineOf entry).getLast? := by
      have behind : (lineOf entry).getLast? = (Digits.text entry.2).getLast? := by
        rw [lineOf, List.append_cons, ← List.append_assoc,
          List.getLast?_append_of_ne_nil _ nonempty]
      rw [behind]
      intro last
      exact absurd (digits _ (List.mem_of_mem_getLast? last)) (by decide)
    rw [List.flatMap_cons, List.append_assoc, List.singleton_append, Text.lines_append whole ends,
      ih plain.2, List.map_cons]

theorem filled_lineOf (entries : List (String × ℕ)) :
    Text.filled (entries.map lineOf) = entries.map lineOf := by
  rw [Text.filled, List.filter_eq_self]
  intro line mem
  obtain ⟨entry, -, same⟩ := List.mem_map.mp mem
  have bar : '|' ∈ line := by simp [← same, lineOf]
  have visible : line.all Text.isBlank ≠ true := by
    intro blank
    exact absurd (List.all_eq_true.mp blank '|' bar) (by decide)
  simpa using visible

theorem ofSource_listing {c : Catalog} (plain : ∀ entry ∈ c.entries, Plain entry) :
    ofSource (listing c.entries) = .ok c := by
  rw [ofSource_eq_ok_iff, lines_listing plain, filled_lineOf, List.forall₂_map_left_iff,
    List.forall₂_same]
  intro entry mem
  exact (plain entry mem).declares

theorem exists_line {ls : List (List Char)} {entries : List (String × ℕ)}
    (declared : List.Forall₂ Declares ls entries) :
    ∀ entry ∈ entries, ∃ line ∈ ls, Declares line entry := by
  induction declared with
  | nil => simp
  | @cons line entry ls entries declares _ ih =>
    intro other mem
    rcases List.mem_cons.mp mem with first | later
    · exact ⟨line, List.mem_cons_self, first ▸ declares⟩
    · obtain ⟨own, inside, declares⟩ := ih other later
      exact ⟨own, List.mem_cons_of_mem line inside, declares⟩

theorem plain_of_ofSource {source : String} {c : Catalog} (read : ofSource source = .ok c) :
    ∀ entry ∈ c.entries, Plain entry := by
  intro entry mem
  obtain ⟨line, inside, declares⟩ := exists_line (ofSource_eq_ok_iff.mp read) entry mem
  have own : line ∈ Text.lines source.toList := (List.mem_filter.mp inside).1
  exact declares.plain (Text.not_mem_of_mem_lines own)

theorem ofSource_reordered {source : String} {c : Catalog} (read : ofSource source = .ok c)
    {order : List (String × ℕ)} (perm : order.Perm c.entries) :
    ∃ d, ofSource (listing order) = .ok d ∧ d.entries = order ∧ c.same d = true ∧
      ∀ name, d.arity? name = c.arity? name := by
  have distinct : (order.map Prod.fst).Nodup := (perm.map Prod.fst).nodup_iff.mpr c.distinct
  obtain ⟨d, entries⟩ : ∃ d : Catalog, d.entries = order := ⟨⟨order, distinct⟩, rfl⟩
  rw [← entries] at perm ⊢
  have plain : ∀ entry ∈ d.entries, Plain entry := by
    intro entry mem
    exact plain_of_ofSource read entry (perm.mem_iff.mp mem)
  exact ⟨d, ofSource_listing plain, rfl, same_iff_perm.mpr perm.symm, arity?_of_perm perm⟩

/-- A text is a catalog exactly if each line that is not blank has a name, a bar and a positive
    arity, and no two have the same name; the catalog has what the lines declare, one entry each.
    Else the first line that cannot follow those before it is the fault, with its number. A catalog
    that was read is read back from its entries, written in any order. -/
theorem ofSource_exact :
    (∀ source : String,
      ((∃ c, ofSource source = .ok c) ↔
        (∀ line ∈ Text.filled (Text.lines source.toList),
          '|' ∈ line ∧ nameOf line ≠ [] ∧ ∃ n, IsArity (valueOf line) n) ∧
        ((Text.filled (Text.lines source.toList)).map nameOf).Nodup) ∧
      (∀ c, ofSource source = .ok c ↔
        List.Forall₂ Declares (Text.filled (Text.lines source.toList)) c.entries) ∧
      ∀ fault, ofSource source = .error fault ↔
        ∃ before line after earlier,
          Text.lines source.toList = before ++ line :: after ∧
          List.Forall₂ Declares (Text.filled before) earlier.entries ∧
          line.all Text.isBlank = false ∧ Stops earlier (before.length + 1) line fault) ∧
      ∀ source c order, ofSource source = .ok c → order.Perm c.entries →
        ∃ d, ofSource (listing order) = .ok d ∧ d.entries = order ∧ c.same d = true ∧
          ∀ name, d.arity? name = c.arity? name := by
  refine ⟨?_, ?_⟩
  · intro source
    exact ⟨exists_ofSource_iff, fun _ => ofSource_eq_ok_iff, fun _ => ofSource_eq_error_iff⟩
  · intro source c order read perm
    exact ofSource_reordered read perm

/-- A name that is there already, with an arity that is none: the arity is reported. -/
example :
    (ofSource "add | 2\n\n  sqrt|+01 \r\nadd | 0").map entries = .error (.invalidArity "0" 4) := by
  decide +kernel

theorem ofSource_of_exchanged_lines :
    ∃ c d, ofSource "add | 2\n\n  sqrt|+01 \r\n" = .ok c ∧ ofSource "sqrt | 1\nadd | 2\n" = .ok d ∧
      c.same d = true ∧ d.arity? "sqrt" = some 1 := by
  have read : (ofSource "add | 2\n\n  sqrt|+01 \r\n").map entries =
      .ok [("add", 2), ("sqrt", 1)] := by decide +kernel
  have text : listing [("sqrt", 1), ("add", 2)] = "sqrt | 1\nadd | 2\n" := by decide +kernel
  cases source : ofSource "add | 2\n\n  sqrt|+01 \r\n" with
  | error fault => simp [source, Except.map] at read
  | ok c =>
    have held : c.entries = [("add", 2), ("sqrt", 1)] := by
      simpa [source, Except.map] using read
    have perm : [("sqrt", 1), ("add", 2)].Perm c.entries := by
      rw [held]
      exact List.Perm.swap _ _ _
    obtain ⟨d, reread, -, same, arities⟩ := ofSource_exact.2 _ c _ source perm
    rw [text] at reread
    refine ⟨c, d, rfl, reread, same, ?_⟩
    rw [arities, arity?, held]
    rfl

end Catalog

end WordProblem
