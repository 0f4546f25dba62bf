import WordProblem.Proofs.Options
import WordProblem.Proofs.Scanning

/-!
Groups that show a quotient. No numeral reaches over a separator, so the numerals of a group are
those before the separator and those behind it. The count of the numerals, which decides how a group
is read, and the reading of the two halves therefore speak of the same numerals.
-/
namespace WordProblem

namespace Numeral

structure Separates (sep : Char) : Prop where
  digit : sep.isDigit = false
  sign : sep ≠ '-'
  point : sep ≠ '.'

section
variable {sep : Char} (apart : Separates sep) (s after : List Char)
include apart

theorem takeWhile_separated :
    (s ++ sep :: after).takeWhile Char.isDigit = s.takeWhile Char.isDigit := by
  induction s with
  | nil => simp [apart.digit]
  | cons c rest ih => by_cases digit : c.isDigit = true <;> simp [digit, ih]

theorem dropWhile_separated :
    (s ++ sep :: after).dropWhile Char.isDigit = s.dropWhile Char.isDigit ++ sep :: after := by
  induction s with
  | nil => simp [apart.digit]
  | cons c rest ih => by_cases digit : c.isDigit = true <;> simp [digit, ih]

theorem readUnsigned_separated (negative : Bool) :
    readUnsigned negative (s ++ sep :: after) =
      (readUnsigned negative s).map fun read => (read.1, read.2 ++ sep :: after) := by
  simp only [readUnsigned, takeWhile_separated apart, dropWhile_separated apart]
  split
  · rfl
  · cases behind : s.dropWhile Char.isDigit with
    | nil => simp [apart.point]
    | cons c rest =>
      by_cases point : c = '.'
      · subst point
        simp [takeWhile_separated apart, dropWhile_separated apart]
      · simp [point]

theorem read?_separated :
    read? (s ++ sep :: after) =
      (read? s).map fun read => (read.1, read.2 ++ sep :: after) := by
  cases s with
  | nil =>
    rw [List.nil_append, read?_unsigned apart.sign]
    exact readUnsigned_separated apart [] after false
  | cons c rest =>
    by_cases minus : c = '-'
    · subst minus
      exact readUnsigned_separated apart rest after true
    · rw [List.cons_append, read?_unsigned minus, read?_unsigned minus]
      exact readUnsigned_separated apart (c :: rest) after false

end

theorem locate_separated {sep : Char} (apart : Separates sep) (start : ℕ)
    (before after : List Char) :
    locate start (before ++ sep :: after) =
      locate start before ++ locate (start + before.length + 1) after := by
  fun_induction locate start before with
  | case1 start s n rest read ih =>
    obtain ⟨split, _⟩ := read?_eq_append read
    have longer : read? (s ++ sep :: after) = some (n, rest ++ sep :: after) := by
      rw [read?_separated apart, read, Option.map_some]
    have position : start + n.chars.length + rest.length + 1 = start + s.length + 1 := by
      rw [split, List.length_append]
      omega
    rw [locate_of_read? longer, ih, position, List.cons_append]
  | case2 start none =>
    have skipped : read? (sep :: after) = Option.none := by
      simpa [none] using read?_separated apart [] after
    rw [List.nil_append, List.nil_append, locate_skip skipped]
    rfl
  | case3 start c rest none ih =>
    have skipped : read? (c :: (rest ++ sep :: after)) = Option.none := by
      simpa [none] using read?_separated apart (c :: rest) after
    have position : start + 1 + rest.length + 1 = start + (c :: rest).length + 1 := by
      rw [List.length_cons]
      omega
    rw [List.cons_append, locate_skip skipped, ih, position]

theorem scan_separated {sep : Char} (apart : Separates sep) (before after : List Char) :
    scan (before ++ sep :: after) = scan before ++ scan after := by
  rw [← map_locate 0, locate_separated apart, List.map_append, map_locate, map_locate]

theorem firstValue?_of_scan {s : List Char} {n : Numeral} {more : List Numeral}
    (scanned : scan s = n :: more) : firstValue? s = some n.value := by
  rw [firstValue?, scanned, List.head?_cons, Option.map_some]

theorem firstValue?_of_silent {s : List Char} (silent : scan s = []) : firstValue? s = none := by
  rw [firstValue?, silent]
  rfl

theorem scan_of_locate {start : ℕ} {s : List Char} {all : List (ℕ × Numeral)}
    (located : locate start s = all) : scan s = all.map Prod.snd := by
  rw [← located, map_locate]

end Numeral

namespace OptionSet

/-- The separator that counts in a group: the preferred one if it is there, else the other. -/
def Chosen (preferred other : Char) (group : List Char) (sep : Char) : Prop :=
  (preferred ∈ group ∧ sep = preferred) ∨ (preferred ∉ group ∧ other ∈ group ∧ sep = other)

section
variable {preferred other sep : Char} {group : List Char}

theorem Chosen.mem (chosen : Chosen preferred other group sep) : sep ∈ group := by
  rcases chosen with ⟨mem, same⟩ | ⟨_, mem, same⟩
  · rwa [same]
  · rwa [same]

theorem Chosen.either (chosen : Chosen preferred other group sep) :
    sep = preferred ∨ sep = other := by
  rcases chosen with ⟨_, same⟩ | ⟨_, _, same⟩
  · exact .inl same
  · exact .inr same

theorem Chosen.cut (chosen : Chosen preferred other group sep) :
    ∃ before after, group = before ++ sep :: after ∧ sep ∉ before ∧
      group.idxOf sep = before.length := by
  obtain ⟨before, after, split, first⟩ := List.eq_append_cons_of_mem chosen.mem
  refine ⟨before, after, split, first, ?_⟩
  rw [split, List.idxOf_append_of_notMem first, List.idxOf_cons_self, Nat.add_zero]

end

theorem exists_halves {sep : Char} (apart : Numeral.Separates sep) {before after : List Char}
    {all : List (ℕ × Numeral)} (located : Numeral.locate 0 (before ++ sep :: after) = all) :
    ∃ front back, front ++ back = all ∧
      Numeral.scan before = front.map Prod.snd ∧ Numeral.scan after = back.map Prod.snd ∧
      (∀ q ∈ front, q.1 < before.length) ∧ ∀ q ∈ back, before.length < q.1 := by
  refine ⟨Numeral.locate 0 before, Numeral.locate (0 + before.length + 1) after, ?_, ?_, ?_, ?_, ?_⟩
  · rw [← located, Numeral.locate_separated apart]
  · rw [Numeral.map_locate]
  · rw [Numeral.map_locate]
  · intro q mem
    have bounds := Numeral.locate_bounds _ _ q mem
    omega
  · intro q mem
    have bounds := Numeral.locate_bounds _ _ q mem
    omega

section
variable {sep : Char} {before after : List Char} (first : sep ∉ before)
include first

theorem ratio_at :
    ratio sep (before ++ sep :: after) =
      (Numeral.firstValue? before).bind fun x => (Numeral.firstValue? after).bind fun y =>
        if y == 0.0 then none else some (.rounded (x / y)) := by
  rw [ratio, Text.cutAt_append first]
  rfl

theorem mixed_at {w x : Numeral} {more : List Numeral}
    (scanned : Numeral.scan before = w :: x :: more) :
    mixed sep (before ++ sep :: after) = (Numeral.firstValue? after).bind fun y =>
      if y == 0.0 then none else some (.rounded (w.value + x.value / y)) := by
  rw [mixed, Text.cutAt_append first, Option.bind_eq_bind, Option.bind_some]
  dsimp only
  rw [scanned]
  rfl

theorem mixed_of_short (short : (Numeral.scan before).length < 2) :
    mixed sep (before ++ sep :: after) = none := by
  rw [mixed, Text.cutAt_append first, Option.bind_eq_bind, Option.bind_some]
  dsimp only
  cases scanned : Numeral.scan before with
  | nil => rfl
  | cons w more =>
    cases more with
    | nil => rfl
    | cons x others => simp [scanned] at short

theorem ratio_of_located (apart : Numeral.Separates sep) {i j : ℕ} {x y : Numeral}
    (located : Numeral.locate 0 (before ++ sep :: after) = [(i, x), (j, y)]) :
    ratio sep (before ++ sep :: after) =
      if i < before.length ∧ before.length < j ∧ ¬ y.value == 0.0 then
        some (.rounded (x.value / y.value))
      else none := by
  obtain ⟨front, back, split, left, right, low, high⟩ := exists_halves apart located
  rw [ratio_at first]
  match front, back with
  | [], back =>
    have none_before : Numeral.firstValue? before = none := Numeral.firstValue?_of_silent left
    rw [List.nil_append] at split
    subst split
    have behind := high (i, x) (by simp)
    rw [none_before, Option.bind_none, if_neg]
    exact fun placed => absurd placed.1 behind.asymm
  | [p], back =>
    simp only [List.cons_append, List.nil_append, List.cons.injEq] at split
    obtain ⟨rfl, rfl⟩ := split
    have ahead := low (i, x) (by simp)
    have behind := high (j, y) (by simp)
    rw [Numeral.firstValue?_of_scan left, Numeral.firstValue?_of_scan right, Option.bind_some,
      Option.bind_some]
    by_cases zero : y.value == 0.0
    · rw [if_pos zero, if_neg (fun placed => placed.2.2 zero)]
    · rw [if_neg zero, if_pos ⟨ahead, behind, zero⟩]
  | p :: q :: more, back =>
    simp only [List.cons_append, List.cons.injEq, List.append_eq_nil_iff] at split
    obtain ⟨rfl, rfl, rfl, rfl⟩ := split
    have ahead := low (j, y) (by simp)
    have none_after : Numeral.firstValue? after = none := Numeral.firstValue?_of_silent right
    rw [none_after, if_neg (fun placed => absurd placed.2.1 ahead.asymm)]
    cases Numeral.firstValue? before <;> rfl

theorem mixed_of_located (apart : Numeral.Separates sep) {h i j : ℕ} {w x y : Numeral}
    (located : Numeral.locate 0 (before ++ sep :: after) = [(h, w), (i, x), (j, y)]) :
    mixed sep (before ++ sep :: after) =
      if h < before.length ∧ i < before.length ∧ before.length < j ∧ ¬ y.value == 0.0 then
        some (.rounded (w.value + x.value / y.value))
      else none := by
  obtain ⟨front, back, split, left, right, low, high⟩ := exists_halves apart located
  match front, back with
  | [], back =>
    rw [List.nil_append] at split
    subst split
    have behind := high (h, w) (by simp)
    rw [mixed_of_short first (by simp [left]), if_neg]
    exact fun placed => absurd placed.1 behind.asymm
  | [p], back =>
    simp only [List.cons_append, List.nil_append, List.cons.injEq] at split
    obtain ⟨rfl, rfl⟩ := split
    have behind := high (i, x) (by simp)
    rw [mixed_of_short first (by simp [left]), if_neg]
    exact fun placed => absurd placed.2.1 behind.asymm
  | [p, q], back =>
    simp only [List.cons_append, List.nil_append, List.cons.injEq] at split
    obtain ⟨rfl, rfl, rfl⟩ := split
    have whole := low (h, w) (by simp)
    have ahead := low (i, x) (by simp)
    have behind := high (j, y) (by simp)
    rw [mixed_at first left, Numeral.firstValue?_of_scan right, Option.bind_some]
    by_cases zero : y.value == 0.0
    · rw [if_pos zero, if_neg (fun placed => placed.2.2.2 zero)]
    · rw [if_neg zero, if_pos ⟨whole, ahead, behind, zero⟩]
  | p :: q :: r :: more, back =>
    simp only [List.cons_append, List.cons.injEq, List.append_eq_nil_iff] at split
    obtain ⟨rfl, rfl, rfl, rfl, rfl⟩ := split
    have ahead := low (j, y) (by simp)
    have none_after : Numeral.firstValue? after = none := Numeral.firstValue?_of_silent right
    rw [mixed_at first left, none_after, Option.bind_none, if_neg]
    exact fun placed => absurd placed.2.2.1 ahead.asymm

end

theorem separates_of_either {sep : Char} (either : sep = ':' ∨ sep = '/') :
    Numeral.Separates sep := by
  rcases either with rfl | rfl
  · exact ⟨by decide, by decide, by decide⟩
  · exact ⟨by decide, by decide, by decide⟩

section
variable {sep : Char} {group : List Char}

theorem readGroup_of_two (chosen : Chosen ':' '/' group sep) {i j : ℕ} {x y : Numeral}
    (located : Numeral.locate 0 group = [(i, x), (j, y)]) :
    readGroup group =
      if i < group.idxOf sep ∧ group.idxOf sep < j ∧ ¬ y.value == 0.0 then
        some (.rounded (x.value / y.value))
      else none := by
  have scanned : Numeral.scan group = [x, y] := Numeral.scan_of_locate located
  have quotient : readGroup group = ratio sep group := by
    rw [readGroup, scanned]
    rcases chosen with ⟨colon, same⟩ | ⟨colon, slash, same⟩
    · simp [colon, same]
    · simp [colon, slash, same]
  obtain ⟨before, after, split, first, position⟩ := chosen.cut
  rw [quotient, position]
  rw [split] at located ⊢
  exact ratio_of_located first (separates_of_either chosen.either) located

theorem readGroup_of_three (chosen : Chosen '/' ':' group sep) {h i j : ℕ} {w x y : Numeral}
    (located : Numeral.locate 0 group = [(h, w), (i, x), (j, y)]) :
    readGroup group =
      if h < group.idxOf sep ∧ i < group.idxOf sep ∧ group.idxOf sep < j ∧ ¬ y.value == 0.0 then
        some (.rounded (w.value + x.value / y.value))
      else none := by
  have scanned : Numeral.scan group = [w, x, y] := Numeral.scan_of_locate located
  have sum : readGroup group = mixed sep group := by
    rw [readGroup, scanned]
    rcases chosen with ⟨slash, same⟩ | ⟨slash, colon, same⟩
    · simp [slash, same]
    · simp [slash, colon, same]
  obtain ⟨before, after, split, first, position⟩ := chosen.cut
  rw [sum, position]
  rw [split] at located ⊢
  exact mixed_of_located first (separates_of_either chosen.either.symm) located

theorem scan_sides (either : sep = ':' ∨ sep = '/') (mem : sep ∈ group) :
    Numeral.scan (group.take (group.idxOf sep)) ++ Numeral.scan (group.drop (group.idxOf sep + 1)) =
      Numeral.scan group := by
  have chosen : Chosen sep sep group sep := .inl ⟨mem, rfl⟩
  obtain ⟨before, after, split, first, position⟩ := chosen.cut
  rw [position, split, List.take_left, List.drop_length_add_append, List.drop_one,
    List.tail_cons, Numeral.scan_separated (separates_of_either either)]

end

theorem get?_of_ofText {text : String} {s : OptionSet} (read : ofText text = .ok s) {k : ℕ}
    {raw : List Char} (group : (Text.splitOnPair ',' ' ' text.toList)[k]? = some raw) :
    s.get? k = some (readGroup (raw.filter (· != ','))) := by
  rw [get?, ofText_eq_ok_iff.mp read, List.getElem?_map, group, Option.map_some]

/-- A group with two numerals is a quotient when they stand around its separator, a colon or else a
    slash; a group with three is a mixed number when only the last stands behind its separator, a
    slash or else a colon. Its slot is empty when the numerals stand otherwise or the last is
    zero. The two sides of the separator hold the numerals of the group and no others. -/
theorem slot_of_quotient {text : String} {s : OptionSet} (read : ofText text = .ok s) {k : ℕ}
    {raw : List Char} (group : (Text.splitOnPair ',' ' ' text.toList)[k]? = some raw) :
    let g := raw.filter (· != ',')
    (∀ sep x y, Chosen ':' '/' g sep → Numeral.scan g = [x, y] →
      ∃ i j, Numeral.locate 0 g = [(i, x), (j, y)] ∧
        s.get? k = some
          (if i < g.idxOf sep ∧ g.idxOf sep < j ∧ ¬ y.value == 0.0 then
            some (.rounded (x.value / y.value))
          else none)) ∧
    (∀ sep w x y, Chosen '/' ':' g sep → Numeral.scan g = [w, x, y] →
      ∃ h i j, Numeral.locate 0 g = [(h, w), (i, x), (j, y)] ∧
        s.get? k = some
          (if h < g.idxOf sep ∧ i < g.idxOf sep ∧ g.idxOf sep < j ∧ ¬ y.value == 0.0 then
            some (.rounded (w.value + x.value / y.value))
          else none)) ∧
    ∀ sep, sep = ':' ∨ sep = '/' → sep ∈ g →
      Numeral.scan (g.take (g.idxOf sep)) ++ Numeral.scan (g.drop (g.idxOf sep + 1)) =
        Numeral.scan g := by
  intro g
  have slot : s.get? k = some (readGroup g) := get?_of_ofText read group
  refine ⟨?_, ?_, ?_⟩
  · intro sep x y chosen scanned
    rw [← Numeral.map_locate 0] at scanned
    obtain ⟨⟨i, _⟩, rest, located, rfl, others⟩ := List.map_eq_cons_iff.mp scanned
    obtain ⟨⟨j, _⟩, rfl, rfl⟩ := List.map_eq_singleton_iff.mp others
    exact ⟨i, j, located, by rw [slot, readGroup_of_two chosen located]⟩
  · intro sep w x y chosen scanned
    rw [← Numeral.map_locate 0] at scanned
    obtain ⟨⟨h, _⟩, rest, located, rfl, others⟩ := List.map_eq_cons_iff.mp scanned
    obtain ⟨⟨i, _⟩, last, rfl, rfl, single⟩ := List.map_eq_cons_iff.mp others
    obtain ⟨⟨j, _⟩, rfl, rfl⟩ := List.map_eq_singleton_iff.mp single
    exact ⟨h, i, j, located, by rw [slot, readGroup_of_three chosen located]⟩
  · intro sep either mem
    exact scan_sides either mem

theorem slot_of_quotient_with_grouped_digits :
    ∃ s : OptionSet, ofText "a ) 2 1 : 4, b ) -3 8 /, c ) 1,000 / 4, d ) 1, e ) 1" = .ok s ∧
      Chosen ':' '/' "c ) 1000 / 4".toList '/' ∧
      Numeral.scan "c ) 1000 / 4".toList =
        [⟨false, "1000".toList, none⟩, ⟨false, "4".toList, none⟩] ∧
      Numeral.locate 0 "c ) 1000 / 4".toList =
        [(4, ⟨false, "1000".toList, none⟩), (11, ⟨false, "4".toList, none⟩)] ∧
      s.get? 2 = some (some (.integer 250)) := by
  let slots : List (Option Number) :=
    [some (.real 2.25), none, some (.integer 250), some (.integer 1), some (.integer 1)]
  have read : ofText "a ) 2 1 : 4, b ) -3 8 /, c ) 1,000 / 4, d ) 1, e ) 1" = .ok ⟨slots, rfl⟩ := by
    decide +kernel
  have group : (Text.splitOnPair ',' ' '
      "a ) 2 1 : 4, b ) -3 8 /, c ) 1,000 / 4, d ) 1, e ) 1".toList)[2]? =
        some "c ) 1,000 / 4".toList := by
    decide +kernel
  have ungrouped : "c ) 1,000 / 4".toList.filter (· != ',') = "c ) 1000 / 4".toList := by
    decide +kernel
  have chosen : Chosen ':' '/' "c ) 1000 / 4".toList '/' := by
    rw [Chosen]
    decide +kernel
  have scanned : Numeral.scan "c ) 1000 / 4".toList =
      [⟨false, "1000".toList, none⟩, ⟨false, "4".toList, none⟩] := by
    decide +kernel
  have quotient := (slot_of_quotient read group).1
  rw [ungrouped] at quotient
  obtain ⟨i, j, located, slot⟩ := quotient '/' _ _ chosen scanned
  have places : Numeral.locate 0 "c ) 1000 / 4".toList =
      [(4, ⟨false, "1000".toList, none⟩), (11, ⟨false, "4".toList, none⟩)] := by
    decide +kernel
  rw [places] at located
  cases located
  refine ⟨_, read, chosen, scanned, places, ?_⟩
  rw [slot]
  decide +kernel

end OptionSet

end WordProblem
