import WordProblem.Options
import WordProblem.Proofs.Numeral

/-!
Option listings read back. Whichever way a group was read, its value is canonical: an integer
where a double holds it exactly, and a double that is none otherwise. Such a value prints as one
numeral, and an empty slot as none, so the listing of a set of options is read group by group to
the set again.
-/
namespace WordProblem

namespace Text
variable {first second : Char}

theorem splitOnPair_cons (c : Char) (s : List Char) :
    splitOnPair first second (c :: s) =
      if c = first ∧ s.head? = some second then [] :: splitOnPair first second s.tail
      else (splitOnPair first second s).modifyHead (c :: ·) := by
  cases s with
  | nil => simp [splitOnPair]
  | cons d rest => simp [splitOnPair]

theorem not_pair_of_whole {c : Char} {s : List Char} (whole : ¬ [first, second] <:+: c :: s) :
    ¬ (c = first ∧ s.head? = some second) := by
  intro both
  obtain ⟨rest, rfl⟩ := List.head?_eq_some_iff.mp both.2
  exact whole ⟨[], rest, by simp [both.1]⟩

theorem splitOnPair_whole {piece : List Char} (whole : ¬ [first, second] <:+: piece) :
    splitOnPair first second piece = [piece] := by
  induction piece with
  | nil => rfl
  | cons c rest ih =>
    have later := ih fun inside => whole (List.infix_cons inside)
    rw [splitOnPair_cons, if_neg (not_pair_of_whole whole), later, List.modifyHead_cons]

/-- A pair of different characters does not begin earlier when something stands before it. -/
theorem splitOnPair_append (differ : first ≠ second) {piece : List Char}
    (whole : ¬ [first, second] <:+: piece) (rest : List Char) :
    splitOnPair first second (piece ++ first :: second :: rest) =
      piece :: splitOnPair first second rest := by
  induction piece with
  | nil => simp [splitOnPair]
  | cons c more ih =>
    have later := ih fun inside => whole (List.infix_cons inside)
    have other : ¬ (c = first ∧ (more ++ first :: second :: rest).head? = some second) := by
      cases more with
      | nil => simp [differ]
      | cons d tail => simpa using not_pair_of_whole whole
    rw [List.cons_append, splitOnPair_cons, if_neg other, later, List.modifyHead_cons]

theorem splitOnPair_intercalate (differ : first ≠ second) {pieces : List (List Char)}
    (nonempty : pieces ≠ []) (whole : ∀ piece ∈ pieces, ¬ [first, second] <:+: piece) :
    splitOnPair first second ([first, second].intercalate pieces) = pieces := by
  induction pieces with
  | nil => exact absurd rfl nonempty
  | cons piece rest ih =>
    have own := whole piece (by simp)
    cases rest with
    | nil => simpa using splitOnPair_whole own
    | cons next more =>
      have later := ih (by simp) fun other mem => whole other (List.mem_cons_of_mem piece mem)
      rw [List.intercalate_cons_cons, List.append_assoc, List.cons_append, List.singleton_append,
        splitOnPair_append differ own, later]

end Text

namespace Number

/-- The integer is chosen exactly where a double holds it. -/
def Canonical : Number → Prop
  | .integer n => n.natAbs ≤ largestExact
  | .real x => Binary64.exactInt? x = none

theorem integer_canonical {x : Float} {n : Int} (whole : Binary64.exactInt? x = some n) :
    (integer n).Canonical := by
  obtain ⟨_, small⟩ := Option.filter_eq_some_iff.mp whole
  simpa [Canonical] using small

theorem canonical_canonical (x : Float) : (canonical x).Canonical := by
  unfold canonical
  split
  · rename_i whole
    exact integer_canonical whole
  · assumption

theorem rounded_canonical (x : Float) : (rounded x).Canonical := by
  unfold rounded
  split
  · rename_i whole
    exact integer_canonical whole
  · exact canonical_canonical _

theorem chars_numeral {v : Number} (settled : v.Canonical)
    (finite : ∀ x, v = .real x → x.isFinite = true) :
    ∃ n : Numeral, n.Written ∧ n.chars = v.chars ∧ canonical n.value = v := by
  cases v with
  | integer k =>
    refine ⟨⟨decide (k < 0), Digits.text k.natAbs, none⟩, ⟨Digits.isNumeric_text _, ?_⟩, ?_, ?_⟩
    · rintro _ ⟨⟩
    · simp [Numeral.chars, chars]
    · have value : (⟨decide (k < 0), Digits.text k.natAbs, none⟩ : Numeral).value =
          Binary64.nearest (decide (k < 0)) k.natAbs 1 := by
        simp [Numeral.value, Digits.value_text]
      rw [value, canonical, Binary64.exactInt?_nearest _ settled]
      simp only [decide_eq_true_eq, integer.injEq]
      split <;> omega
  | real x =>
    obtain ⟨n, written, shown, value⟩ := Binary64.chars_numeral (finite x rfl)
    refine ⟨n, written, shown, ?_⟩
    have none : Binary64.exactInt? x = none := settled
    rw [value, canonical, none]

end Number

theorem Numeral.comma_not_mem {n : Numeral} (written : n.Written) : ',' ∉ n.chars := by
  have unsigned := not_mem_unsigned written (c := ',') (by decide) (by decide)
  rw [chars_signed]
  cases n.negative <;> simp [unsigned]

theorem Numeral.scan_cons {c : Char} {s : List Char} (digit : c.isDigit = false) (sign : c ≠ '-') :
    scan (c :: s) = scan s := by
  apply scan_skip
  simp [read?, readUnsigned, digit, sign]

namespace OptionSet

theorem ratio_canonical {separator : Char} {group : List Char} {v : Number}
    (read : ratio separator group = some v) : v.Canonical := by
  simp only [ratio, Option.bind_eq_bind, Option.bind_eq_some_iff] at read
  obtain ⟨_, _, x, _, y, _, quotient⟩ := read
  split at quotient
  · cases quotient
  · cases quotient
    exact Number.rounded_canonical _

theorem mixed_canonical {separator : Char} {group : List Char} {v : Number}
    (read : mixed separator group = some v) : v.Canonical := by
  simp only [mixed, Option.bind_eq_bind, Option.bind_eq_some_iff] at read
  obtain ⟨_, _, sum⟩ := read
  split at sum
  · obtain ⟨y, _, quotient⟩ := Option.bind_eq_some_iff.mp sum
    split at quotient
    · cases quotient
    · cases quotient
      exact Number.rounded_canonical _
  · cases sum

theorem readGroup_canonical {group : List Char} {v : Number} (read : readGroup group = some v) :
    v.Canonical := by
  have plain : ∀ {x : Numeral}, some (Number.canonical x.value) = some v → v.Canonical := by
    rintro x ⟨⟩
    exact Number.canonical_canonical _
  unfold readGroup at read
  split at read
  · cases read
  · split at read
    · exact ratio_canonical read
    · split at read
      · exact ratio_canonical read
      · exact plain read
  · split at read
    · exact mixed_canonical read
    · split at read
      · exact mixed_canonical read
      · exact plain read
  · exact plain read

theorem ofText_eq_ok_iff {text : String} {s : OptionSet} :
    ofText text = .ok s ↔ s.slots = (Text.splitOnPair ',' ' ' text.toList).map
      fun group => readGroup (group.filter (· != ',')) := by
  obtain ⟨slots, five⟩ := s
  unfold ofText ofChars
  dsimp only
  constructor
  · intro read
    split at read
    · cases read
      rfl
    · cases read
  · intro same
    subst same
    rw [List.length_map] at five
    rw [dif_pos five]

theorem slots_canonical {text : String} {s : OptionSet} (read : ofText text = .ok s) :
    ∀ v, some v ∈ s.slots → v.Canonical := by
  intro v mem
  rw [ofText_eq_ok_iff.mp read] at mem
  obtain ⟨group, _, value⟩ := List.mem_map.mp mem
  exact readGroup_canonical value

theorem labels_plain : ∀ label ∈ labels, label.isDigit = false ∧ label ≠ '-' ∧ label ≠ ',' := by
  intro label known
  simp only [labels, List.mem_cons, List.not_mem_nil, or_false] at known
  rcases known with rfl | rfl | rfl | rfl | rfl <;> decide

theorem readGroup_slot {label : Char} (known : label ∈ labels) {slot : Option Number}
    (settled : ∀ v, slot = some v → v.Canonical)
    (finite : ∀ x, slot = some (.real x) → x.isFinite = true) :
    ',' ∉ label :: ')' :: ' ' :: slotChars slot ∧
      readGroup (label :: ')' :: ' ' :: slotChars slot) = slot := by
  obtain ⟨digit, sign, comma⟩ := labels_plain label known
  have scanned : Numeral.scan (label :: ')' :: ' ' :: slotChars slot) =
      Numeral.scan (slotChars slot) := by
    rw [Numeral.scan_cons digit sign, Numeral.scan_cons (by decide) (by decide),
      Numeral.scan_cons (by decide) (by decide)]
  unfold readGroup
  rw [scanned]
  cases slot with
  | none =>
    have silent : Numeral.scan ['-'] = [] := by
      rw [Numeral.scan_skip (by rfl), Numeral.scan_nil]
    simp [slotChars, silent, comma.symm]
  | some v =>
    obtain ⟨n, written, shown, value⟩ :=
      Number.chars_numeral (settled v rfl) fun x real => finite x (by rw [real])
    have clean := Numeral.comma_not_mem written
    simp only [slotChars, ← shown, Numeral.scan_chars written, value]
    simp [clean, comma.symm]

/-- A listing of finite options is read to the options again. -/
theorem ofText_text {listing : String} {s : OptionSet} (read : ofText listing = .ok s)
    (finite : ∀ x, some (.real x) ∈ s.slots → x.isFinite = true) : ofText s.text = .ok s := by
  have settled := slots_canonical read
  have group : ∀ slot ∈ labels.zip s.slots,
      ',' ∉ slot.1 :: ')' :: ' ' :: slotChars slot.2 ∧
        readGroup (slot.1 :: ')' :: ' ' :: slotChars slot.2) = slot.2 := by
    rintro ⟨label, value⟩ mem
    obtain ⟨known, own⟩ := List.of_mem_zip mem
    apply readGroup_slot known
    · rintro v rfl
      exact settled v own
    · rintro x rfl
      exact finite x own
  have paired : labels.length = s.slots.length := s.five.symm
  have split : Text.splitOnPair ',' ' ' s.text.toList =
      (labels.zip s.slots).map fun slot => slot.1 :: ')' :: ' ' :: slotChars slot.2 := by
    rw [text, String.toList_ofList, chars]
    apply Text.splitOnPair_intercalate (by decide)
    · rw [← List.length_pos_iff, List.length_map, List.length_zip, ← paired]
      decide
    · intro piece mem
      obtain ⟨slot, member, rfl⟩ := List.mem_map.mp mem
      intro separated
      exact (group slot member).1 (separated.subset (by simp))
  have count : (Text.splitOnPair ',' ' ' s.text.toList).length = 5 := by
    rw [split, List.length_map, List.length_zip, ← paired]
    rfl
  have values : (Text.splitOnPair ',' ' ' s.text.toList).map
      (fun group => readGroup (group.filter (· != ','))) = s.slots := by
    rw [split, List.map_map]
    calc (labels.zip s.slots).map _ = (labels.zip s.slots).map Prod.snd := by
          apply List.map_congr_left
          intro slot member
          obtain ⟨clean, value⟩ := group slot member
          rw [Function.comp_apply, List.filter_eq_self.mpr, value]
          intro c inside
          rw [bne_iff_ne]
          rintro rfl
          exact clean inside
      _ = s.slots := List.map_snd_zip paired.ge
  obtain ⟨slots, five⟩ := s
  unfold ofText ofChars
  dsimp only
  rw [dif_pos count]
  simp only [values]

theorem ofText_text_of_mixed_groups :
    ∃ s : OptionSet,
      ofText "a ) 1 / 3 , b ) 2 1 / 4 , c ) 1,000 , d ) none , e ) -0.5" = .ok s ∧
        s.text = "a) 0.33333, b) 2.25, c) 1000, d) -, e) -0.5" ∧
        (∀ x, some (.real x) ∈ s.slots → x.isFinite = true) ∧ ofText s.text = .ok s := by
  let slots : List (Option Number) :=
    [some (.real 0.33333), some (.real 2.25), some (.integer 1000), none, some (.real (-0.5))]
  have read : ofText "a ) 1 / 3 , b ) 2 1 / 4 , c ) 1,000 , d ) none , e ) -0.5" =
      .ok ⟨slots, rfl⟩ := by decide +kernel
  have finite : ∀ x, some (.real x) ∈ slots → x.isFinite = true := by
    intro x mem
    simp only [slots, List.mem_cons, Option.some.injEq, Number.real.injEq, reduceCtorEq,
      List.not_mem_nil, or_false, false_or] at mem
    rcases mem with rfl | rfl | rfl <;> decide +kernel
  exact ⟨⟨slots, rfl⟩, read, by decide +kernel, finite, ofText_text read finite⟩

end OptionSet

end WordProblem
