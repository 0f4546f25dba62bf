import WordProblem.Proofs.Options

namespace WordProblem

namespace Text
variable {first second : Char}

theorem intercalate_modifyHead {sep : List Char} (c : Char) {pieces : List (List Char)}
    (nonempty : pieces ≠ []) :
    sep.intercalate (pieces.modifyHead (c :: ·)) = c :: sep.intercalate pieces := by
  cases pieces with
  | nil => exact absurd rfl nonempty
  | cons piece rest =>
    cases rest with
    | nil => simp
    | cons next more => simp [List.intercalate_cons_cons]

theorem intercalate_splitOnPair (s : List Char) :
    [first, second].intercalate (splitOnPair first second s) = s := by
  fun_induction splitOnPair first second s with
  | case1 => simp
  | case2 c => simp
  | case3 c d rest both ih =>
    obtain ⟨piece, more, split⟩ := List.exists_cons_of_ne_nil (splitOnPair_ne_nil first second rest)
    rw [split] at ih ⊢
    rw [List.intercalate_cons_cons, ih, both.1, both.2]
    rfl
  | case4 c d rest other ih =>
    rw [intercalate_modifyHead c (splitOnPair_ne_nil first second (d :: rest)), ih]

theorem prefix_of_splitOnPair {s piece : List Char} {more : List (List Char)}
    (split : splitOnPair first second s = piece :: more) : piece <+: s := by
  rw [← @intercalate_splitOnPair first second s, split]
  cases more with
  | nil => simp
  | cons next others =>
    rw [List.intercalate_cons_cons, List.append_assoc]
    exact List.prefix_append _ _

theorem whole_of_splitOnPair (s : List Char) :
    ∀ piece ∈ splitOnPair first second s, ¬ [first, second] <:+: piece := by
  fun_induction splitOnPair first second s with
  | case1 => simp
  | case2 c =>
    intro piece mem inside
    have length := inside.length_le
    simp [List.mem_singleton.mp mem] at length
  | case3 c d rest both ih =>
    intro piece mem
    rcases List.mem_cons.mp mem with empty | later
    · simp [empty]
    · exact ih piece later
  | case4 c d rest other ih =>
    obtain ⟨piece, more, split⟩ :=
      List.exists_cons_of_ne_nil (splitOnPair_ne_nil first second (d :: rest))
    rw [split] at ih
    rw [split, List.modifyHead_cons]
    intro long mem
    rcases List.mem_cons.mp mem with front | later
    · rw [front]
      intro inside
      rcases List.infix_cons_iff.mp inside with start | inner
      · have longer : c :: piece <+: c :: d :: rest :=
          List.cons_prefix_cons.mpr ⟨rfl, prefix_of_splitOnPair split⟩
        obtain ⟨t, whole⟩ := start.trans longer
        simp at whole
        exact other ⟨whole.1.symm, whole.2.1.symm⟩
      · exact ih piece (by simp) inner
    · exact ih long (List.mem_cons_of_mem piece later)

theorem modifyHead_injective {f : List Char → List Char} (injective : Function.Injective f) :
    Function.Injective (List.modifyHead f) := by
  intro pieces others same
  cases pieces with
  | nil =>
    cases others with
    | nil => rfl
    | cons other more => cases same
  | cons piece rest =>
    cases others with
    | nil => cases same
    | cons other more =>
      obtain ⟨front, later⟩ := List.cons.inj same
      rw [injective front, later]

end Text

namespace OptionSet

theorem ofText_eq_error_iff {text : String} {fault : OptionFault} :
    ofText text = .error fault ↔
      (Text.splitOnPair ',' ' ' text.toList).length ≠ 5 ∧
        fault = .wrongCount (Text.splitOnPair ',' ' ' text.toList).length := by
  unfold ofText ofChars
  dsimp only
  split
  · rename_i five
    simp [five]
  · rename_i other
    simp [other, eq_comm]

structure GroupsOf (text : String) (groups : List String) : Prop where
  nonempty : groups ≠ []
  whole : ∀ g ∈ groups, ¬ [',', ' '] <:+: g.toList
  joined : ", ".intercalate groups = text

theorem GroupsOf.split {text : String} {groups : List String} (splits : GroupsOf text groups) :
    Text.splitOnPair ',' ' ' text.toList = groups.map String.toList := by
  have separator : ", ".toList = [',', ' '] := rfl
  rw [← splits.joined, String.toList_intercalate, separator]
  apply Text.splitOnPair_intercalate (by decide)
  · simpa using splits.nonempty
  · intro piece mem
    obtain ⟨g, member, same⟩ := List.mem_map.mp mem
    rw [← same]
    exact splits.whole g member

theorem groupsOf_split (text : String) :
    GroupsOf text ((Text.splitOnPair ',' ' ' text.toList).map String.ofList) := by
  have separator : ", ".toList = [',', ' '] := rfl
  constructor
  · simpa using Text.splitOnPair_ne_nil ',' ' ' text.toList
  · intro g mem
    obtain ⟨piece, member, same⟩ := List.mem_map.mp mem
    rw [← same, String.toList_ofList]
    exact Text.whole_of_splitOnPair text.toList piece member
  · rw [← String.toList_inj, String.toList_intercalate, separator, List.map_map]
    have same : (String.toList ∘ String.ofList) = id := funext fun _ => String.toList_ofList
    rw [same, List.map_id, Text.intercalate_splitOnPair]

theorem GroupsOf.unique {text : String} {groups others : List String}
    (one : GroupsOf text groups) (two : GroupsOf text others) : groups = others := by
  have same : groups.map String.toList = others.map String.toList := by
    rw [← one.split, two.split]
  exact (List.map_inj_right fun _ _ => String.toList_inj.mp).mp same

def slotOf (group : String) : Option Number := readGroup (group.toList.filter (· != ','))

theorem GroupsOf.slots {text : String} {groups : List String} (splits : GroupsOf text groups)
    {s : OptionSet} : ofText text = .ok s ↔ s.slots = groups.map slotOf := by
  rw [ofText_eq_ok_iff, splits.split, List.map_map]
  rfl

theorem GroupsOf.ofText {text : String} {groups : List String} (splits : GroupsOf text groups)
    (five : groups.length = 5) : ∃ s, ofText text = .ok s ∧ s.slots = groups.map slotOf := by
  refine ⟨⟨groups.map slotOf, by simp [five]⟩, ?_, rfl⟩
  exact splits.slots.mpr rfl

theorem GroupsOf.set {text : String} {groups : List String} (splits : GroupsOf text groups) (k : ℕ)
    {other : String} (whole : ¬ [',', ' '] <:+: other.toList) :
    GroupsOf (", ".intercalate (groups.set k other)) (groups.set k other) := by
  refine ⟨?_, ?_, rfl⟩
  · simpa using splits.nonempty
  · intro g mem
    rcases List.mem_or_eq_of_mem_set mem with own | new
    · exact splits.whole g own
    · rwa [new]

/-- Some commas are left out, none of them before a space. -/
inductive Thinned : List Char → List Char → Prop where
  | nil : Thinned [] []
  | keep {s t : List Char} (c : Char) (rest : Thinned s t) : Thinned (c :: s) (c :: t)
  | drop {s t : List Char} (free : s.head? ≠ some ' ') (rest : Thinned s t) : Thinned (',' :: s) t

theorem Thinned.head?_iff {s t : List Char} (thin : Thinned s t) :
    s.head? = some ' ' ↔ t.head? = some ' ' := by
  induction thin with
  | nil => exact Iff.rfl
  | keep => exact Iff.rfl
  | drop free rest ih =>
    have later := mt ih.mpr free
    simp [later]

def ungrouped (pieces : List (List Char)) : List (List Char) := pieces.map (List.filter (· != ','))

theorem ungrouped_modifyHead (c : Char) (pieces : List (List Char)) :
    ungrouped (pieces.modifyHead (c :: ·)) =
      (ungrouped pieces).modifyHead ([c].filter (· != ',') ++ ·) := by
  cases pieces with
  | nil => rfl
  | cons piece rest =>
    simp only [ungrouped, List.modifyHead_cons, List.map_cons, List.filter_cons, List.filter_nil]
    split <;> rfl

theorem Thinned.ungrouped_splitOnPair {s t : List Char} (thin : Thinned s t) :
    ungrouped (Text.splitOnPair ',' ' ' s) = ungrouped (Text.splitOnPair ',' ' ' t) := by
  induction thin with
  | nil => rfl
  | @keep s t c rest ih =>
    rw [Text.splitOnPair_cons, Text.splitOnPair_cons]
    by_cases pair : c = ',' ∧ s.head? = some ' '
    · rw [if_pos pair, if_pos ⟨pair.1, rest.head?_iff.mp pair.2⟩]
      obtain ⟨u, behind⟩ := List.head?_eq_some_iff.mp pair.2
      obtain ⟨v, behind'⟩ := List.head?_eq_some_iff.mp (rest.head?_iff.mp pair.2)
      -- the space begins the rests on both sides, so they agree behind it too
      have blank : ∀ after : List Char, ¬ (' ' = ',' ∧ after.head? = some ' ') := by
        intro after both
        exact absurd both.1 (by decide)
      rw [behind, behind', Text.splitOnPair_cons, Text.splitOnPair_cons, if_neg (blank u),
        if_neg (blank v), ungrouped_modifyHead, ungrouped_modifyHead] at ih
      have same := Text.modifyHead_injective (List.append_right_injective _) ih
      rw [behind, behind', List.tail_cons, List.tail_cons]
      exact congrArg (List.cons []) same
    · rw [if_neg pair, if_neg (by rwa [← rest.head?_iff]), ungrouped_modifyHead,
        ungrouped_modifyHead, ih]
  | @drop s t free rest ih =>
    have nothing : [','].filter (· != ',') = [] := by decide
    rw [Text.splitOnPair_cons, if_neg (fun pair => free pair.2), ungrouped_modifyHead, ih, nothing]
    cases ungrouped (Text.splitOnPair ',' ' ' t) <;> rfl

theorem ofText_of_thinned {text thinned : String} (thin : Thinned text.toList thinned.toList) :
    ofText thinned = ofText text := by
  have same := thin.ungrouped_splitOnPair
  have count := congrArg List.length same
  simp only [ungrouped, List.length_map] at count
  cases read : ofText text with
  | error fault =>
    rw [ofText_eq_error_iff] at read ⊢
    rwa [← count]
  | ok s =>
    rw [ofText_eq_ok_iff] at read ⊢
    have slots := congrArg (List.map readGroup) same
    simp only [ungrouped, List.map_map] at slots
    rw [read]
    exact slots

/-- Each text is the join of groups without the separator in exactly one way. Five groups are read
    to five slots, and a group put in the place of another changes the slot of that one and no
    other; any other number of groups is an error that tells it. Commas without a space behind
    them may be left out. -/
theorem slots_independent :
    (∀ text, ∃! groups, GroupsOf text groups) ∧
      (∀ text groups, GroupsOf text groups → groups.length ≠ 5 →
        ofText text = .error (.wrongCount groups.length)) ∧
      (∀ text groups, GroupsOf text groups → groups.length = 5 →
        ∃ s, ofText text = .ok s ∧ s.slots = groups.map slotOf ∧
          ∀ k other, ¬ [',', ' '] <:+: other.toList →
            ∃ t, ofText (", ".intercalate (groups.set k other)) = .ok t ∧
              t.slots = s.slots.set k (slotOf other) ∧ ∀ i, i ≠ k → t.get? i = s.get? i) ∧
      ∀ text thinned : String, Thinned text.toList thinned.toList →
        ofText thinned = ofText text := by
  refine ⟨?_, ?_, ?_, ?_⟩
  · intro text
    exact ⟨_, groupsOf_split text, fun others splits => splits.unique (groupsOf_split text)⟩
  · intro text groups splits other
    have count : (Text.splitOnPair ',' ' ' text.toList).length = groups.length := by
      rw [splits.split, List.length_map]
    rw [ofText_eq_error_iff, count]
    exact ⟨other, rfl⟩
  · intro text groups splits five
    obtain ⟨s, read, slots⟩ := splits.ofText five
    refine ⟨s, read, slots, ?_⟩
    intro k other whole
    obtain ⟨t, reread, replaced⟩ := (splits.set k whole).ofText (by simp [five])
    rw [List.map_set, ← slots] at replaced
    refine ⟨t, reread, replaced, ?_⟩
    intro i apart
    rw [get?, get?, replaced, List.getElem?_set_ne (Ne.symm apart)]
  · intro text thinned thin
    exact ofText_of_thinned thin

theorem slots_independent_of_trailing_commas :
    ∃ s t, ofText "1,,, 20,000,,  3, 4, 5" = .ok s ∧ ofText "1,,, none,  3, 4, 5" = .ok t ∧
      s.slots = [some (.integer 1), some (.integer 20000), some (.integer 3), some (.integer 4),
        some (.integer 5)] ∧
      t.slots = s.slots.set 1 none ∧ t.get? 2 = s.get? 2 := by
  have groups : GroupsOf "1,,, 20,000,,  3, 4, 5" ["1,,", "20,000,", " 3", "4", "5"] := by
    constructor
    · simp
    · decide +kernel
    · decide +kernel
  obtain ⟨s, read, slots, replace⟩ := slots_independent.2.2.1 _ _ groups rfl
  obtain ⟨t, reread, replaced, others⟩ := replace 1 "none" (by decide +kernel)
  have text : ", ".intercalate (["1,,", "20,000,", " 3", "4", "5"].set 1 "none") =
      "1,,, none,  3, 4, 5" := by decide +kernel
  have empty : slotOf "none" = none := by decide +kernel
  rw [text] at reread
  rw [empty] at replaced
  refine ⟨s, t, read, reread, ?_, replaced, others 2 (by decide)⟩
  rw [slots]
  decide +kernel

end OptionSet

end WordProblem
