import WordProblem.Proofs.Diagnosis
import WordProblem.Proofs.Failure
import WordProblem.Proofs.Fragment
import WordProblem.Proofs.Messages
import WordProblem.Solve

/-!
Where the tokens in a fault come from. A fault of the reading quotes tokens that were read or
references to results, a fault of a run quotes tokens of the program. So whatever holds of all
tokens of a source, of references and of numerals holds of everything a message quotes.
-/
namespace WordProblem
open Text

namespace Assembly

structure Keeps (P : Token → Prop) (a : Assembly) : Prop where
  frames : ∀ frame ∈ a.frames, P frame.operator
  waiting : ∀ t ∈ a.waiting, P t
  emitted : ∀ t ∈ Program.tokens a.emitted, P t

variable {P : Token → Prop}

theorem keeps_empty : Keeps P .empty :=
  ⟨by simp [empty], by simp [empty], by simp [empty, Program.tokens]⟩

theorem settle_keeps (reference : ∀ i, P (Token.reference i)) {frames : List Frame}
    {waiting : List Token} {emitted : Program} (keeps : Keeps P ⟨frames, waiting, emitted⟩) :
    Keeps P (settle waiting emitted frames) := by
  induction frames generalizing waiting emitted with
  | nil => exact keeps
  | cons frame outer ih =>
    unfold settle
    split
    · apply ih
      constructor
      · intro other mem
        exact keeps.frames other (List.mem_cons_of_mem frame mem)
      · intro t mem
        rcases List.mem_cons.mp mem with rfl | below
        · exact reference _
        · exact keeps.waiting t (List.mem_of_mem_drop below)
      · intro t mem
        rw [Program.tokens_append, List.mem_append] at mem
        rcases mem with before | own
        · exact keeps.emitted t before
        · simp only [Program.tokens, Operation.tokens, List.flatMap_cons, List.flatMap_nil,
            List.append_nil, List.mem_cons, List.mem_reverse] at own
          rcases own with rfl | argument
          · exact keeps.frames frame (by simp)
          · exact keeps.waiting t (List.mem_of_mem_take argument)
    · exact keeps

theorem take_keeps (reference : ∀ i, P (Token.reference i)) {c : Catalog}
    {allowed : Option ArgumentSet} {position : Nat} {a b : Assembly} {t : Token} (own : P t)
    (keeps : Keeps P a) (taken : take c allowed position a t = .ok b) : Keeps P b := by
  unfold take at taken
  split at taken
  · cases taken
    exact ⟨List.forall_mem_cons.mpr ⟨own, keeps.frames⟩, keeps.waiting, keeps.emitted⟩
  · split at taken
    · cases taken
    · split at taken
      · cases taken
      · cases taken
        apply settle_keeps reference
        exact ⟨keeps.frames, List.forall_mem_cons.mpr ⟨own, keeps.waiting⟩, keeps.emitted⟩

theorem takeAll_keeps (reference : ∀ i, P (Token.reference i)) {c : Catalog}
    {allowed : Option ArgumentSet} {position : Nat} {a b : Assembly} {tokens : List Token}
    (own : ∀ t ∈ tokens, P t) (keeps : Keeps P a)
    (read : takeAll c allowed position a tokens = .ok b) : Keeps P b := by
  induction tokens generalizing position a with
  | nil =>
    cases read
    exact keeps
  | cons t rest ih =>
    rw [takeAll] at read
    split at read
    · cases read
    · rename_i next taken
      exact ih (fun u mem => own u (List.mem_cons_of_mem t mem))
        (take_keeps reference (own t (by simp)) keeps taken) read

theorem take_quotes {c : Catalog} {allowed : Option ArgumentSet} {position : Nat} {a : Assembly}
    {t : Token} {fault : NestedFault} (failed : take c allowed position a t = .error fault) :
    fault.fault.quoted = [t] := by
  obtain ⟨_, ⟨_, rfl⟩ | ⟨_, _, rfl⟩⟩ := take_error failed
  · rfl
  · rfl

theorem finish_quotes {a : Assembly} (keeps : Keeps P a) {fault : NestedFault}
    (failed : a.finish = .error fault) : ∀ t ∈ fault.fault.quoted, P t := by
  have left : ∀ t ∈ a.leftover, P t := by
    intro t mem
    apply keeps.waiting
    unfold leftover at mem
    split at mem
    · cases mem
    · rename_i last rest shape
      rw [shape]
      split at mem
      · exact List.mem_cons_of_mem last mem
      · exact mem
  unfold finish at failed
  split at failed
  · cases failed
    intro t mem
    exact left t (List.mem_reverse.mp mem)
  · split at failed
    · cases failed
      intro t mem
      obtain ⟨frame, pending, rfl⟩ := List.mem_map.mp mem
      exact keeps.frames frame (List.mem_reverse.mp pending)
    · cases failed

end Assembly

theorem Fragment.Stops.quoted {c : Catalog} {allowed : Option ArgumentSet} {f : Fragment}
    {lacking : Nat} {after : List Token} {fault : ReadingFault}
    (stops : f.Stops c allowed lacking after fault) :
    ∀ t ∈ fault.quoted, t ∈ f.tokens ++ after := by
  cases stops <;> simp [ReadingFault.quoted, f.operator_mem_tokens]

namespace Program
variable {P : Token → Prop}

theorem ofNested_tokens (reference : ∀ i, P (Token.reference i)) {c : Catalog}
    {allowed : Option ArgumentSet} {tokens : List Token} (own : ∀ t ∈ tokens, P t) {p : Program}
    (read : ofNested c allowed tokens = .ok p) : ∀ t ∈ p.tokens, P t := by
  unfold ofNested at read
  split at read
  · cases read
  · rename_i a taken
    have keeps := Assembly.takeAll_keeps reference own Assembly.keeps_empty taken
    unfold Assembly.finish at read
    split at read
    · cases read
    · split at read
      · cases read
      · cases read
        exact keeps.emitted

theorem ofNested_quotes (reference : ∀ i, P (Token.reference i)) {c : Catalog}
    {allowed : Option ArgumentSet} {tokens : List Token} (own : ∀ t ∈ tokens, P t)
    {fault : NestedFault} (failed : ofNested c allowed tokens = .error fault) :
    ∀ t ∈ fault.fault.quoted, P t := by
  unfold ofNested at failed
  split at failed
  · rename_i first stopped
    cases failed
    obtain ⟨before, t, after, b, rfl, _, taken⟩ := Assembly.takeAll_error stopped
    rw [Assembly.take_quotes taken, List.forall_mem_singleton]
    exact own t (by simp)
  · rename_i a taken
    have keeps := Assembly.takeAll_keeps reference own Assembly.keeps_empty taken
    exact Assembly.finish_quotes keeps failed

theorem check_quotes {c : Catalog} {allowed : Option ArgumentSet} {tokens : List Token}
    (own : ∀ t ∈ tokens, P t) {fault : ReadingFault}
    (failed : check c allowed tokens = .error fault) : ∀ t ∈ fault.quoted, P t := by
  rcases check_error failed with ⟨t, rest, rfl, _, rfl⟩ | ⟨f, _, after, rfl, _, stops⟩
  · exact List.forall_mem_singleton.mpr (own t (by simp))
  · intro t mem
    exact own t (stops.quoted t mem)

end Program

theorem Memory.valueOf_quotes {m : Memory} {t : Token} {fault : StepFault}
    (failed : m.valueOf t = .error fault) : ∀ u ∈ fault.quoted, u = t := by
  rcases valueOf_error failed with ⟨_, rfl⟩ | rfl | rfl | rfl | ⟨_, rfl, _⟩
  · simp [StepFault.quoted]
  · simp [StepFault.quoted]
  · simp [StepFault.quoted]
  · simp [StepFault.quoted]
  · simp [StepFault.quoted]

theorem Operation.value_quotes {op : Operation} {m : Memory} {fault : StepFault}
    (failed : op.value m = .error fault) : ∀ u ∈ fault.quoted, u ∈ op.tokens := by
  rcases value_error failed with ⟨_, rfl⟩ | ⟨_, _, _, rfl⟩ | ⟨t, argument, unresolved⟩ | ⟨_, rfl⟩
  · simp [StepFault.quoted, tokens]
  · simp [StepFault.quoted, tokens]
  · intro u mem
    rw [Memory.valueOf_quotes unresolved u mem]
    exact List.mem_cons_of_mem op.operator argument
  · simp [StepFault.quoted, tokens]

theorem Program.run_quotes {p : Program} {fault : Fault} (failed : p.run = .error fault) :
    ∀ u ∈ fault.quoted, u ∈ p.tokens := by
  obtain ⟨op, member, left, step, cause, refused, rfl⟩ := runFrom_error failed
  intro u mem
  exact List.mem_flatMap.mpr ⟨op, member, Operation.value_quotes refused u mem⟩

end WordProblem
