import Mathlib.Data.Nat.PSub
import Mathlib.Logic.Relation
import WordProblem.Proofs.Diagnosis

/-!
The two stacks of the nested reader, turn by turn. A point of the pass lies between two tokens, or
after an argument, where calls are being completed. The reader subtracts heights of the argument
stack and cuts it; each of these operations is checked here, and fails where it would go below
zero or above the top. Along every pass the bases of the open calls are ordered and covered by
the arguments, so none of them fails, and every point is a point of `takeAll`.
-/
namespace WordProblem.Assembly

/-- The open calls have the innermost one first and the waiting arguments the newest one last;
    `counter` is the number of the next reference. -/
structure Point where
  unread : List Token
  frames : List Frame
  arguments : List Token
  emitted : Program
  counter : Nat
  settling : Bool
  deriving DecidableEq, Repr

namespace Point

def resting (a : Assembly) (unread : List Token) : Point :=
  ⟨unread, a.frames, a.waiting.reverse, a.emitted, a.emitted.length, false⟩

def start (tokens : List Token) : Point := resting .empty tokens

def rest (p : Point) : Point := { p with settling := false }

def opened (p : Point) (t : Token) (arity : Nat) (later : List Token) : Point :=
  { p with unread := later, frames := ⟨t, arity, p.arguments.length⟩ :: p.frames }

def put (p : Point) (t : Token) (later : List Token) : Point :=
  { p with unread := later, arguments := p.arguments ++ [t], settling := true }

def close (p : Point) (frame : Frame) (outer : List Frame) (below bound : List Token) : Point :=
  { p with
    frames := outer
    arguments := below ++ [Token.reference p.counter]
    emitted := p.emitted ++ [⟨frame.operator, bound⟩]
    counter := p.counter + 1 }

/-- What is below a height and what is from there on; a stack cannot be cut above its top. -/
def splitOff (arguments : List Token) (height : Nat) : Option (List Token × List Token) :=
  if height ≤ arguments.length then some (arguments.splitAt height) else none

/-- One turn of the loop that completes calls. There is no next point where a subtraction goes
    below zero or the arguments are cut out of range. -/
def turn (p : Point) : Option Point :=
  match p.frames with
  | [] => some p.rest
  | frame :: outer => do
    let own ← Nat.psub p.arguments.length frame.base
    if own < frame.arity then
      return p.rest
    else
      let height ← Nat.psub p.arguments.length frame.arity
      let (below, bound) ← splitOff p.arguments height
      return p.close frame outer below bound

inductive Step (c : Catalog) (allowed : Option ArgumentSet) : Point → Point → Prop
  | opens {p : Point} {t : Token} {later : List Token} {arity : Nat} (rests : p.settling = false)
      (next : p.unread = t :: later) (known : c.arity? t = some arity) :
      Step c allowed p (p.opened t arity later)
  | puts {p : Point} {t : Token} {later : List Token} (rests : p.settling = false)
      (next : p.unread = t :: later) (unknown : c.arity? t = none)
      (admitted : admits allowed t = true) (pending : p.frames ≠ []) :
      Step c allowed p (p.put t later)
  | turns {p q : Point} (settling : p.settling = true) (turned : p.turn = some q) :
      Step c allowed p q

def Reaches (c : Catalog) (allowed : Option ArgumentSet) : Point → Point → Prop :=
  Relation.ReflTransGen (Step c allowed)

def todo (p : Point) : Nat := 2 * p.unread.length + p.frames.length + p.settling.toNat

/-- The bases of the open calls do not decrease from the outermost call inwards, and none is
    above the arguments. -/
structure Stacked (p : Point) : Prop where
  ordered : p.frames.Pairwise fun inner outer => outer.base ≤ inner.base
  within : ∀ frame ∈ p.frames, frame.base ≤ p.arguments.length
  counted : p.counter = p.emitted.length

/-- Every open call has fewer arguments of its own than its arity. They are those from its base
    up to the base of the next call, and for the innermost one up to `top`. -/
def Unfilled : Nat → List Frame → Prop
  | _, [] => True
  | top, frame :: outer => top < frame.base + frame.arity ∧ Unfilled frame.base outer

def settled (p : Point) : Assembly :=
  if p.settling then settle p.arguments.reverse p.emitted p.frames
  else ⟨p.frames, p.arguments.reverse, p.emitted⟩

theorem splitOff_append (below bound : List Token) :
    splitOff (below ++ bound) below.length = some (below, bound) := by
  simp [splitOff, List.splitAt_eq]

section
variable {p q : Point} {frame : Frame} {outer : List Frame} {below bound : List Token}

theorem turn_of_lacking (frames : p.frames = frame :: outer)
    (within : frame.base ≤ p.arguments.length)
    (lacking : p.arguments.length < frame.base + frame.arity) : p.turn = some p.rest := by
  have own : p.arguments.length - frame.base < frame.arity := by omega
  simp [turn, frames, Nat.psub_eq_sub within, own]

theorem turn_of_full (frames : p.frames = frame :: outer) (arguments : p.arguments = below ++ bound)
    (base : frame.base ≤ below.length) (arity : bound.length = frame.arity) :
    p.turn = some (p.close frame outer below bound) := by
  have height : p.arguments.length = below.length + frame.arity := by
    rw [arguments, List.length_append, arity]
  have own : Nat.psub p.arguments.length frame.base =
      some (below.length + frame.arity - frame.base) := by
    rw [height, Nat.psub_eq_sub (by omega)]
  have under : Nat.psub p.arguments.length frame.arity = some below.length := by
    rw [height, Nat.psub_eq_some]
  have cut : splitOff p.arguments below.length = some (below, bound) := by
    rw [arguments, splitOff_append]
  have enough : ¬ below.length + frame.arity - frame.base < frame.arity := by omega
  simp [turn, frames, own, under, enough, cut]

theorem turn_cases (stacked : p.Stacked) :
    (p.turn = some p.rest ∧
      ∀ frame ∈ p.frames.head?, p.arguments.length < frame.base + frame.arity) ∨
    ∃ frame outer below bound, p.frames = frame :: outer ∧ p.arguments = below ++ bound ∧
      frame.base ≤ below.length ∧ bound.length = frame.arity ∧
      p.turn = some (p.close frame outer below bound) := by
  cases frames : p.frames with
  | nil => exact .inl ⟨by simp [turn, frames], by simp⟩
  | cons frame outer =>
    have within := stacked.within frame (by simp [frames])
    by_cases lacking : p.arguments.length < frame.base + frame.arity
    · exact .inl ⟨turn_of_lacking frames within lacking, by simpa using lacking⟩
    · have parts := (List.take_append_drop (p.arguments.length - frame.arity) p.arguments).symm
      have base : frame.base ≤ (p.arguments.take (p.arguments.length - frame.arity)).length := by
        rw [List.length_take]
        omega
      have arity : (p.arguments.drop (p.arguments.length - frame.arity)).length = frame.arity := by
        rw [List.length_drop]
        omega
      exact .inr ⟨frame, outer, _, _, rfl, parts, base, arity, turn_of_full frames parts base arity⟩

end

section
variable {c : Catalog} {allowed : Option ArgumentSet} {p q : Point}

theorem stacked_start (tokens : List Token) : (start tokens).Stacked :=
  ⟨List.Pairwise.nil, by simp [start, resting, empty], rfl⟩

theorem stacked_turn (stacked : p.Stacked) (turned : p.turn = some q) : q.Stacked := by
  obtain ⟨next, _⟩ | ⟨frame, outer, below, bound, frames, arguments, base, _, next⟩ :=
    turn_cases stacked
  · obtain rfl : p.rest = q := Option.some.inj (next.symm.trans turned)
    exact ⟨stacked.ordered, stacked.within, stacked.counted⟩
  · obtain rfl : p.close frame outer below bound = q := Option.some.inj (next.symm.trans turned)
    have ordered := stacked.ordered
    rw [frames, List.pairwise_cons] at ordered
    refine ⟨ordered.2, ?_, ?_⟩
    · -- the bases of the outer calls are below the one of the call that closes
      intro other mem
      have under : other.base ≤ frame.base := ordered.1 other mem
      simp only [close, List.length_append, List.length_singleton]
      omega
    · simp [close, stacked.counted]

theorem stacked_step (stacked : p.Stacked) (step : Step c allowed p q) : q.Stacked := by
  cases step with
  | opens rests next known =>
    refine ⟨List.pairwise_cons.mpr ⟨stacked.within, stacked.ordered⟩, ?_, stacked.counted⟩
    intro frame mem
    rcases List.mem_cons.mp mem with rfl | old
    · exact Nat.le_refl _
    · exact stacked.within frame old
  | puts rests next unknown admitted pending =>
    refine ⟨stacked.ordered, fun frame mem => ?_, stacked.counted⟩
    have within := stacked.within frame mem
    simp only [put, List.length_append, List.length_singleton]
    omega
  | turns settling turned => exact stacked_turn stacked turned

theorem stacked_reaches (stacked : p.Stacked) (reaches : Reaches c allowed p q) : q.Stacked := by
  induction reaches with
  | refl => exact stacked
  | tail _ step ih => exact stacked_step ih step

/-- While calls are being completed, the argument that came last is not counted. -/
theorem unfilled_step (positive : c.Positive) (stacked : p.Stacked) (step : Step c allowed p q)
    (unfilled : Unfilled (p.arguments.length - p.settling.toNat) p.frames) :
    Unfilled (q.arguments.length - q.settling.toNat) q.frames := by
  cases step with
  | @opens t later arity rests next known =>
    have some_argument := positive t arity known
    simp only [opened, rests, Bool.toNat_false, Nat.sub_zero, Unfilled] at unfilled ⊢
    exact ⟨by omega, unfilled⟩
  | puts rests next unknown admitted pending =>
    simpa [put, rests] using unfilled
  | turns settling turned =>
    obtain ⟨next, lacking⟩ | ⟨frame, outer, below, bound, frames, arguments, base, arity, next⟩ :=
      turn_cases stacked
    · obtain rfl : p.rest = q := Option.some.inj (next.symm.trans turned)
      cases frames : p.frames with
      | nil => simp [rest, frames, Unfilled]
      | cons frame outer =>
        rw [frames] at unfilled lacking
        simpa [rest, frames, Unfilled] using ⟨lacking frame rfl, unfilled.2⟩
    · obtain rfl : p.close frame outer below bound = q := Option.some.inj (next.symm.trans turned)
      rw [frames, arguments, settling] at unfilled
      simp only [Unfilled, List.length_append, arity, Bool.toNat_true] at unfilled
      -- the call had exactly its arguments, so one reference stands above the next base
      have height : below.length = frame.base := by omega
      simpa [close, settling, height] using unfilled.2

theorem unfilled_reaches (positive : c.Positive) (stacked : p.Stacked)
    (unfilled : Unfilled (p.arguments.length - p.settling.toNat) p.frames)
    (reaches : Reaches c allowed p q) :
    Unfilled (q.arguments.length - q.settling.toNat) q.frames := by
  induction reaches with
  | refl => exact unfilled
  | tail before step ih => exact unfilled_step positive (stacked_reaches stacked before) step ih

theorem todo_step (stacked : p.Stacked) (step : Step c allowed p q) : q.todo + 1 = p.todo := by
  cases step with
  | opens rests next known =>
    simp only [todo, opened, next, List.length_cons]
    omega
  | puts rests next unknown admitted pending =>
    simp only [todo, put, next, rests, List.length_cons, Bool.toNat_false, Bool.toNat_true]
    omega
  | turns settling turned =>
    obtain ⟨next, _⟩ | ⟨frame, outer, below, bound, frames, _, _, _, next⟩ := turn_cases stacked
    · obtain rfl : p.rest = q := Option.some.inj (next.symm.trans turned)
      simp [todo, rest, settling]
    · obtain rfl : p.close frame outer below bound = q := Option.some.inj (next.symm.trans turned)
      simp only [todo, close, frames, List.length_cons]
      omega

theorem settled_turn (stacked : p.Stacked) (settling : p.settling = true)
    (turned : p.turn = some q) : q.settled = p.settled := by
  obtain ⟨next, lacking⟩ | ⟨frame, outer, below, bound, frames, arguments, base, arity, next⟩ :=
    turn_cases stacked
  · obtain rfl : p.rest = q := Option.some.inj (next.symm.trans turned)
    cases frames : p.frames with
    | nil => simp [settled, rest, settling, frames, settle]
    | cons frame outer =>
      have within := stacked.within frame (by simp [frames])
      rw [frames] at lacking
      have fewer := lacking frame rfl
      rw [← List.length_reverse] at within fewer
      simp [settled, rest, settling, frames, settle_incomplete fewer within]
  · obtain rfl : p.close frame outer below bound = q := Option.some.inj (next.symm.trans turned)
    have own : bound.reverse.length = frame.arity := by rw [List.length_reverse, arity]
    have enough : frame.arity ≤ (bound.reverse ++ below.reverse).length - frame.base := by
      simp only [List.length_append, List.length_reverse, arity]
      omega
    simp only [settled, close, settling, frames, arguments, if_true, List.reverse_append, settle,
      if_pos enough, List.take_left' own, List.drop_left' own, List.reverse_reverse,
      stacked.counted, List.reverse_singleton, List.singleton_append]

theorem settled_resting (a : Assembly) (unread : List Token) : (resting a unread).settled = a := by
  simp [settled, resting]

theorem eq_resting (stacked : p.Stacked) (rests : p.settling = false) :
    p = resting p.settled p.unread := by
  obtain ⟨unread, frames, arguments, emitted, counter, settling⟩ := p
  have counted : counter = emitted.length := stacked.counted
  simp only at rests
  subst rests counted
  simp [settled, resting]

theorem unread_turn (stacked : p.Stacked) (turned : p.turn = some q) : q.unread = p.unread := by
  obtain ⟨next, _⟩ | ⟨frame, outer, below, bound, _, _, _, _, next⟩ := turn_cases stacked
  · obtain rfl : p.rest = q := Option.some.inj (next.symm.trans turned)
    rfl
  · obtain rfl : p.close frame outer below bound = q := Option.some.inj (next.symm.trans turned)
    rfl

theorem turn_isSome (stacked : p.Stacked) : ∃ q, p.turn = some q := by
  obtain ⟨next, _⟩ | ⟨frame, outer, below, bound, _, _, _, _, next⟩ := turn_cases stacked
  · exact ⟨_, next⟩
  · exact ⟨_, next⟩

theorem comes_to_rest (c : Catalog) (allowed : Option ArgumentSet) (stacked : p.Stacked) :
    Reaches c allowed p (resting p.settled p.unread) := by
  induction work : p.todo generalizing p with
  | zero =>
    have rests : p.settling = false := by
      cases settling : p.settling with
      | false => rfl
      | true => simp [todo, settling] at work
    exact (eq_resting stacked rests) ▸ .refl
  | succ n ih =>
    cases settling : p.settling with
    | false => exact (eq_resting stacked settling) ▸ .refl
    | true =>
      obtain ⟨q, turned⟩ := turn_isSome stacked
      have step : Step c allowed p q := .turns settling turned
      have less : q.todo = n := by
        have := todo_step stacked step
        omega
      have onwards := ih (stacked_step stacked step) less
      rw [settled_turn stacked settling turned, unread_turn stacked turned] at onwards
      exact .head step onwards

theorem take_of_opens {position arity : Nat} {t : Token} (rests : p.settling = false)
    (known : c.arity? t = some arity) (later : List Token) :
    take c allowed position p.settled t = .ok (p.opened t arity later).settled := by
  simp [take, settled, opened, rests, known]

theorem take_of_puts {position : Nat} {t : Token} (rests : p.settling = false)
    (unknown : c.arity? t = none) (admitted : admits allowed t = true) (pending : p.frames ≠ [])
    (later : List Token) :
    take c allowed position p.settled t = .ok (p.put t later).settled := by
  simp [take, settled, put, rests, unknown, admitted, pending]

theorem takeAll_step (stacked : p.Stacked) (step : Step c allowed p q) {tokens read : List Token}
    (parts : tokens = read ++ p.unread)
    (taken : takeAll c allowed 0 .empty read = .ok p.settled) :
    ∃ read, tokens = read ++ q.unread ∧ takeAll c allowed 0 .empty read = .ok q.settled := by
  cases step with
  | @opens t later arity rests next known =>
    refine ⟨read ++ [t], by simpa [opened, next] using parts, ?_⟩
    rw [takeAll_append taken, takeAll, take_of_opens rests known later]
    rfl
  | @puts t later rests next unknown admitted pending =>
    refine ⟨read ++ [t], by simpa [put, next] using parts, ?_⟩
    rw [takeAll_append taken, takeAll, take_of_puts rests unknown admitted pending later]
    rfl
  | turns settling turned =>
    refine ⟨read, ?_, ?_⟩
    · rw [unread_turn stacked turned, parts]
    · rw [settled_turn stacked settling turned, taken]

theorem takeAll_reaches {tokens : List Token} (reaches : Reaches c allowed (start tokens) q) :
    ∃ read, tokens = read ++ q.unread ∧ takeAll c allowed 0 .empty read = .ok q.settled := by
  induction reaches with
  | refl => exact ⟨[], rfl, by rw [start, settled_resting, takeAll]⟩
  | tail before step ih =>
    obtain ⟨read, parts, taken⟩ := ih
    exact takeAll_step (stacked_reaches (stacked_start tokens) before) step parts taken

theorem reaches_take {a b : Assembly} {position : Nat} {t : Token} {later : List Token}
    (stacked : (resting a (t :: later)).Stacked) (taken : take c allowed position a t = .ok b) :
    Reaches c allowed (resting a (t :: later)) (resting b later) := by
  suffices stepped : ∃ q, Step c allowed (resting a (t :: later)) q ∧ q.unread = later ∧
      q.settled = b by
    obtain ⟨q, step, rfl, rfl⟩ := stepped
    exact .head step (comes_to_rest c allowed (stacked_step stacked step))
  rw [← settled_resting a (t :: later)] at taken
  cases known : c.arity? t with
  | some arity =>
    rw [take_of_opens rfl known later] at taken
    exact ⟨_, .opens rfl rfl known, rfl, Except.ok.inj taken⟩
  | none =>
    by_cases admitted : admits allowed t = true
    · by_cases pending : (resting a (t :: later)).frames = []
      · simp [take, settled_resting, known, admitted, show a.frames = [] from pending] at taken
      · rw [take_of_puts rfl known admitted pending later] at taken
        exact ⟨_, .puts rfl rfl known admitted pending, rfl, Except.ok.inj taken⟩
    · simp [take, known, admitted] at taken

theorem reaches_takeAll {a b : Assembly} {position : Nat} {read later : List Token}
    (stacked : (resting a (read ++ later)).Stacked)
    (taken : takeAll c allowed position a read = .ok b) :
    Reaches c allowed (resting a (read ++ later)) (resting b later) := by
  induction read generalizing a position with
  | nil =>
    cases taken
    exact .refl
  | cons t more ih =>
    rw [takeAll] at taken
    cases next : take c allowed position a t with
    | error fault => simp [next] at taken
    | ok middle =>
      rw [next] at taken
      have first := reaches_take stacked next
      exact first.trans (ih (stacked_reaches stacked first) taken)

end

/-- At every point that a pass reaches the bases do not decrease inwards and none is above the
    arguments, so a turn of the loop never fails; the loop ends, and with it the pass. The counter
    is the number of emitted operations. Where no call is complete without an argument, every open
    call is short of one whenever the loop has come to rest. The points are those of the reader:
    each is told by what the tokens so far are read to, and each state of the reader is reached. -/
theorem stacks_along_a_pass (c : Catalog) (allowed : Option ArgumentSet) (tokens : List Token) :
    (∀ p, Reaches c allowed (start tokens) p →
      (p.frames.Pairwise fun inner outer => outer.base ≤ inner.base) ∧
      (∀ frame ∈ p.frames, frame.base ≤ p.arguments.length) ∧
      (∃ q, p.turn = some q) ∧
      (∀ q, Step c allowed p q → q.todo + 1 = p.todo) ∧
      Reaches c allowed p (resting p.settled p.unread) ∧
      p.counter = p.emitted.length ∧
      (c.Positive → p.settling = false → Unfilled p.arguments.length p.frames) ∧
      ∃ read, tokens = read ++ p.unread ∧ takeAll c allowed 0 .empty read = .ok p.settled) ∧
    ∀ read later a, tokens = read ++ later → takeAll c allowed 0 .empty read = .ok a →
      Reaches c allowed (start tokens) (resting a later) := by
  refine ⟨fun p reaches => ?_, ?_⟩
  · have stacked := stacked_reaches (stacked_start tokens) reaches
    refine ⟨stacked.ordered, stacked.within, turn_isSome stacked,
      fun q step => todo_step stacked step, comes_to_rest c allowed stacked, stacked.counted, ?_,
      takeAll_reaches reaches⟩
    intro positive rests
    have unfilled := unfilled_reaches positive (stacked_start tokens) trivial reaches
    rwa [rests, Bool.toNat_false, Nat.sub_zero] at unfilled
  · rintro read later a rfl taken
    exact reaches_takeAll (stacked_start (read ++ later)) taken

/-- Two calls are complete after the last token of the first pass, the inner one first. In the
    second pass a call without arguments is complete as soon as an argument of the outer one
    comes, and takes none of it. -/
theorem stacks_along_two_passes :
    (∃ p q, Reaches .builtin none (start ["add", "n0", "multiply", "n1", "n2"]) p ∧
      p = ⟨[], [⟨"multiply", 2, 1⟩, ⟨"add", 2, 0⟩], ["n0", "n1", "n2"], [], 0, true⟩ ∧
      p.turn = some q ∧ q.frames = [⟨"add", 2, 0⟩] ∧ q.arguments = ["n0", "#0"] ∧
      Reaches .builtin none p (resting ⟨[], ["#1"],
        [⟨"multiply", ["n1", "n2"]⟩, ⟨"add", ["n0", "#0"]⟩]⟩ [])) ∧
    ∃ p q, Reaches (.ofList [("unit", 0), ("add", 2)]) none (start ["add", "unit", "n0"]) p ∧
      p = ⟨[], [⟨"unit", 0, 0⟩, ⟨"add", 2, 0⟩], ["n0"], [], 0, true⟩ ∧
      p.turn = some q ∧ q.frames = [⟨"add", 2, 0⟩] ∧ q.arguments = ["n0", "#0"] ∧
      Reaches (.ofList [("unit", 0), ("add", 2)]) none p (resting ⟨[], ["#1"],
        [⟨"unit", []⟩, ⟨"add", ["n0", "#0"]⟩]⟩ []) := by
  refine ⟨?_, ?_⟩
  · have points := stacks_along_a_pass .builtin none ["add", "n0", "multiply", "n1", "n2"]
    have before := points.2 ["add", "n0", "multiply", "n1"] ["n2"]
      ⟨[⟨"multiply", 2, 1⟩, ⟨"add", 2, 0⟩], ["n1", "n0"], []⟩ rfl (by rfl)
    have reached := before.tail (.puts rfl rfl (by rfl) (by decide) (by decide))
    obtain ⟨_, _, _, _, rests, _⟩ := points.1 _ reached
    exact ⟨_, _, reached, rfl, rfl, rfl, rfl, rests⟩
  · have points := stacks_along_a_pass (Catalog.ofList [("unit", 0), ("add", 2)]) none
      ["add", "unit", "n0"]
    have before := points.2 ["add", "unit"] ["n0"] ⟨[⟨"unit", 0, 0⟩, ⟨"add", 2, 0⟩], [], []⟩ rfl
      (by rfl)
    have reached := before.tail (.puts rfl rfl (by rfl) (by decide) (by decide))
    obtain ⟨_, _, _, _, rests, _⟩ := points.1 _ reached
    exact ⟨_, _, reached, rfl, rfl, rfl, rfl, rests⟩

end Point

end WordProblem.Assembly
