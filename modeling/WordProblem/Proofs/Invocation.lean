import WordProblem.CommandLine.Request

/-!
Requests and command lines. What a command line asks for has no empty path, and every request
without one has a command line that asks for it: each flag in its long form with the value
attached, and the contents behind the separator, so that they may begin with a dash.
-/
namespace WordProblem.CommandLine

namespace Settings

def single (flag : Flag) (value : Option String) : Settings := value.toList.map fun v => (flag, v)

def mark (flag : Flag) (present : Bool) : Settings :=
  single flag (if present then some "" else none)

def Accepted (s : Settings) : Prop := ∀ setting ∈ s, setting.1.accepts setting.2 = true

theorem value?_append (s t : Settings) (flag : Flag) :
    value? (s ++ t) flag = (s.value? flag).or (t.value? flag) := by
  simp only [value?, List.find?_append]
  cases s.find? fun setting => setting.1 == flag <;> rfl

theorem value?_single (flag other : Flag) (value : Option String) :
    (single flag value).value? other = if flag = other then value else none := by
  cases value with
  | none => simp [single, value?]
  | some v => by_cases same : flag = other <;> simp [single, value?, same]

theorem accepted_append {s t : Settings} : Accepted (s ++ t) ↔ s.Accepted ∧ t.Accepted := by
  simp only [Accepted, List.mem_append, or_imp, forall_and]

theorem accepted_of_value? {s : Settings} (accepted : s.Accepted) {flag : Flag} {value : String}
    (given : s.value? flag = some value) : flag.accepts value = true := by
  obtain ⟨setting, found, rfl⟩ := Option.map_eq_some_iff.mp given
  have named : setting.1 = flag := by simpa using List.find?_some found
  rw [← named]
  exact accepted setting (List.mem_of_find?_eq_some found)

theorem value?_or_ne {s t : Settings} (inner : s.Accepted) (outer : t.Accepted) {flag : Flag}
    {value : String} (refused : flag.accepts value = false) :
    (s.value? flag).or (t.value? flag) ≠ some value := by
  intro given
  rcases Option.or_eq_some_iff.mp given with own | ⟨_, own⟩
  · rw [accepted_of_value? inner own] at refused
    cases refused
  · rw [accepted_of_value? outer own] at refused
    cases refused

theorem add?_accepted {s t : Settings} (accepted : s.Accepted) {flag : Flag} {value : String}
    (added : s.add? flag value = some t) : t.Accepted := by
  unfold add? at added
  split at added
  · cases added
  · rename_i fresh
    simp only [Bool.or_eq_true, Bool.not_eq_true', not_or, Bool.not_eq_false] at fresh
    cases added
    rw [accepted_append]
    exact ⟨accepted, by simpa [Accepted] using fresh.2⟩

end Settings

def Progress.Accepted : Progress → Prop
  | .settled s => s.Accepted
  | .awaiting _ s => s.Accepted
  | .notice _ => True
  | .refused => True

def Stop.Accepted : Stop → Prop
  | .plain s _ _ => s.Accepted
  | .separator s _ => s.Accepted
  | .finished s => s.Accepted
  | .notice _ => True
  | .refused => True

section
variable {known : List Flag} {s : Settings}

theorem ofSettings_accepted (accepted : s.Accepted) (flag : Flag) (value : String) :
    (Progress.ofSettings (s.add? flag value)).Accepted := by
  cases added : s.add? flag value with
  | none => trivial
  | some t => exact Settings.add?_accepted accepted added

theorem readShort_accepted (accepted : s.Accepted) (letters : List Char) :
    (readShort known s letters).Accepted := by
  induction letters generalizing s with
  | nil => exact accepted
  | cons c rest ih =>
    unfold readShort
    split
    · trivial
    · split
      · trivial
      · split
        · split
          · exact accepted
          · exact ofSettings_accepted accepted _ _
          · exact ofSettings_accepted accepted _ _
        · split
          · rename_i added
            exact ih (Settings.add?_accepted accepted added)
          · trivial

theorem readLong_accepted (accepted : s.Accepted) (name : String) (value : Option String) :
    (readLong known s name value).Accepted := by
  unfold readLong
  split
  · trivial
  · split
    · trivial
    · split
      · exact ofSettings_accepted accepted _ _
      · trivial
    · split
      · exact accepted
      · exact ofSettings_accepted accepted _ _

theorem readFlags_accepted (accepted : s.Accepted) (waiting : Option Flag) (words : List String) :
    (readFlags known waiting s words).Accepted := by
  induction words generalizing waiting s with
  | nil =>
    unfold readFlags
    split
    · trivial
    · exact accepted
  | cons word rest ih =>
    unfold readFlags
    split
    · split
      · rename_i added
        exact ih (Settings.add?_accepted accepted added) none
      · trivial
    · trivial
    · exact accepted
    · exact accepted
    · rename_i name value _
      have read : (readLong known s name value).Accepted := readLong_accepted accepted name value
      split
      · rename_i found
        rw [found] at read
        exact ih read none
      · rename_i found
        rw [found] at read
        exact ih read _
      · trivial
      · trivial
    · rename_i letters _
      have read : (readShort known s letters).Accepted := readShort_accepted accepted letters
      split
      · rename_i found
        rw [found] at read
        exact ih read none
      · rename_i found
        rw [found] at read
        exact ih read _
      · trivial
      · trivial

end

theorem readContents_accepted {known : List Flag} {words : List String} {s : Settings}
    {contents : String} (read : readContents known words = .ok (s, contents)) : s.Accepted := by
  have none_given : Settings.Accepted [] := by simp [Settings.Accepted]
  have flags : (readFlags known none [] words).Accepted := readFlags_accepted none_given none words
  unfold readContents at read
  split at read
  · rename_i outer text rest found
    rw [found] at flags
    have inner : (readFlags known none outer rest).Accepted := readFlags_accepted flags none rest
    split at read
    · rename_i last
      rw [last] at inner
      cases read
      exact inner
    · rename_i last
      rw [last] at inner
      cases read
      exact inner
    · cases read
  · rename_i found
    rw [found] at flags
    cases read
    exact flags
  · cases read

theorem Invocation.otherwise_ne_request (notice : Option Notice) (r : Request) :
    otherwise notice ≠ .request r := by
  cases notice <;> simp [otherwise]

namespace Request

def NamesFiles (r : Request) : Prop := r.operators ≠ some "" ∧ r.arguments ≠ some ""

theorem namesFiles_of_ofWords {words : List String} {r : Request}
    (asked : Invocation.ofWords words = .request r) : r.NamesFiles := by
  have none_given : Settings.Accepted [] := by simp [Settings.Accepted]
  have flags : (readFlags (Flag.shared ++ [.version]) none [] words).Accepted :=
    readFlags_accepted none_given none words
  unfold Invocation.ofWords at asked
  split at asked
  · rename_i outer name rest found
    rw [found] at flags
    split at asked
    · exact absurd asked (Invocation.otherwise_ne_request _ r)
    · split at asked
      · cases asked
      · split at asked
        · exact absurd asked (Invocation.otherwise_ne_request _ r)
        · rename_i inner contents read
          -- a path comes from either place, and both have accepted theirs
          have more : inner.Accepted := readContents_accepted read
          cases asked
          exact ⟨Settings.value?_or_ne more flags rfl, Settings.value?_or_ne more flags rfl⟩
  · exact absurd asked (Invocation.otherwise_ne_request _ r)

end Request

def Flag.word (flag : Flag) (value : String) : String :=
  if flag.takesValue then "--" ++ flag.long ++ "=" ++ value else "--" ++ flag.long

def Task.name : Task → String
  | .linearize => "linearize"
  | .validate => "validate"
  | .solve _ _ => "solve"
  | .options => "options"

def Task.settings : Task → Settings
  | .solve problem nested => .single .problem (some problem) ++ .mark .nested nested
  | _ => []

def Request.settings (r : Request) : Settings :=
  .single .operators r.operators ++ .single .arguments r.arguments ++ .mark .file r.fromFile ++
    .mark .verbose r.verbose ++ r.task.settings

def Request.words (r : Request) : List String :=
  r.task.name :: (r.settings.map fun setting => setting.1.word setting.2) ++ ["--", r.contents]

theorem Word.ofText_word {flag : Flag} (value : String) :
    Word.ofText (flag.word value) =
      .long flag.long (if flag.takesValue then some value else none) := by
  cases flag <;> simp [Flag.word, Word.ofText, Flag.takesValue, Flag.long, splitAssignment]

structure Understood (known : List Flag) (setting : Flag × String) : Prop where
  known : known.find? (fun flag => flag.long == setting.1.long) = some setting.1
  unnoticed : setting.1.notice? = none
  plain : setting.1.takesValue = false → setting.2 = ""
  accepted : setting.1.accepts setting.2 = true

theorem readLong_word {known : List Flag} {s : Settings} {setting : Flag × String}
    (understood : Understood known setting) :
    readLong known s setting.1.long
        (if setting.1.takesValue then some setting.2 else none) =
      .ofSettings (s.add? setting.1 setting.2) := by
  obtain ⟨flag, value⟩ := setting
  obtain ⟨found, unnoticed, plain, _⟩ := understood
  dsimp only at found unnoticed plain ⊢
  unfold readLong
  rw [found]
  cases carries : flag.takesValue with
  | true => simp [carries]
  | false => simp [carries, unnoticed, plain carries]

theorem Settings.add?_fresh {s : Settings} {setting : Flag × String}
    (fresh : setting.1 ∉ s.map Prod.fst) (accepted : setting.1.accepts setting.2 = true) :
    s.add? setting.1 setting.2 = some (s ++ [setting]) := by
  have absent : s.has setting.1 = false := by
    rw [has, value?, Option.isSome_map, Option.isSome_eq_false_iff, Option.isNone_iff_eq_none,
      List.find?_eq_none]
    intro other mem same
    rw [beq_iff_eq] at same
    exact fresh (same ▸ List.mem_map_of_mem mem)
  simp [add?, absent, accepted]

theorem readFlags_word {known : List Flag} {s t : Settings} {setting : Flag × String}
    (understood : Understood known setting) (added : s.add? setting.1 setting.2 = some t)
    (rest : List String) :
    readFlags known none s (setting.1.word setting.2 :: rest) = readFlags known none t rest := by
  rw [readFlags.eq_def]
  simp only [Word.ofText_word, readLong_word understood, added, Progress.ofSettings]

theorem readFlags_words {known : List Flag} {s settings : Settings}
    (understood : ∀ setting ∈ settings, Understood known setting)
    (distinct : ((s ++ settings).map Prod.fst).Nodup) (rest : List String) :
    readFlags known none s ((settings.map fun setting => setting.1.word setting.2) ++ rest) =
      readFlags known none (s ++ settings) rest := by
  induction settings generalizing s with
  | nil => simp
  | cons setting more ih =>
    have own := understood setting (by simp)
    have fresh : setting.1 ∉ s.map Prod.fst := by
      rw [List.map_append, List.nodup_append] at distinct
      intro mem
      exact distinct.2.2 setting.1 mem setting.1 (by simp) rfl
    have next := ih (fun other mem => understood other (List.mem_cons_of_mem setting mem))
      (s := s ++ [setting]) (by simpa using distinct)
    rw [List.map_cons, List.cons_append,
      readFlags_word own (Settings.add?_fresh fresh own.accepted), next]
    simp

namespace Request

def knownFlags : Task → List Flag
  | .solve _ _ => Flag.shared ++ [.problem, .nested]
  | _ => Flag.shared

theorem taskFlags_name (task : Task) : taskFlags task.name = some (knownFlags task) := by
  cases task <;> rfl

theorem settings_distinct (r : Request) : (r.settings.map Prod.fst).Nodup := by
  have chunk : ∀ flag value, ((Settings.single flag value).map Prod.fst).Sublist [flag] := by
    intro flag value
    cases value <;> simp [Settings.single]
  have task : (r.task.settings.map Prod.fst).Sublist [.problem, .nested] := by
    cases r.task with
    | solve problem nested =>
      simp only [Task.settings, List.map_append]
      exact (chunk .problem _).append (chunk .nested _)
    | _ => simp [Task.settings]
  have all : (r.settings.map Prod.fst).Sublist
      ([.operators] ++ [.arguments] ++ [.file] ++ [.verbose] ++ [.problem, .nested]) := by
    simp only [settings, List.map_append]
    exact ((((chunk _ _).append (chunk _ _)).append (chunk _ _)).append (chunk _ _)).append task
  exact all.nodup (by decide)

theorem understood_single {known : List Flag} {flag : Flag} {value : Option String}
    (found : known.find? (fun other => other.long == flag.long) = some flag)
    (unnoticed : flag.notice? = none)
    (given : ∀ v, value = some v →
      (flag.takesValue = false → v = "") ∧ flag.accepts v = true) :
    ∀ setting ∈ Settings.single flag value, Understood known setting := by
  intro setting mem
  obtain ⟨v, present, rfl⟩ := List.mem_map.mp mem
  obtain ⟨plain, accepted⟩ := given v (Option.mem_toList.mp present)
  exact ⟨found, unnoticed, plain, accepted⟩

theorem understood_mark {known : List Flag} {flag : Flag}
    (found : known.find? (fun other => other.long == flag.long) = some flag)
    (unnoticed : flag.notice? = none) (accepted : flag.accepts "" = true) (present : Bool) :
    ∀ setting ∈ Settings.mark flag present, Understood known setting := by
  apply understood_single found unnoticed
  intro v given
  cases present <;> simp_all

theorem settings_understood {r : Request} (named : r.NamesFiles) :
    ∀ setting ∈ r.settings, Understood (knownFlags r.task) setting := by
  have shared : ∀ flag ∈ Flag.shared,
      (knownFlags r.task).find? (fun other => other.long == flag.long) = some flag := by
    cases r.task with
    | solve problem nested =>
      simp only [knownFlags]
      decide
    | _ =>
      simp only [knownFlags]
      decide
  have task : ∀ setting ∈ r.task.settings, Understood (knownFlags r.task) setting := by
    cases r.task with
    | solve problem nested =>
      intro setting mem
      rcases List.mem_append.mp mem with text | form
      · exact understood_single rfl rfl (by simp [Flag.takesValue, Flag.accepts]) _ text
      · exact understood_mark rfl rfl rfl nested _ form
    | _ => simp [Task.settings]
  have paths : ∀ flag : Flag, flag.takesValue = true → (∀ v, v ≠ "" → flag.accepts v = true) →
      ∀ value : Option String, value ≠ some "" →
        ∀ v, value = some v → (flag.takesValue = false → v = "") ∧ flag.accepts v = true := by
    intro flag takes accepts value named v given
    refine ⟨by simp [takes], accepts v ?_⟩
    rintro rfl
    exact named given
  intro setting mem
  simp only [settings, List.mem_append] at mem
  rcases mem with (((operators | arguments) | file) | verbose) | own
  · exact understood_single (shared .operators (by decide)) rfl
      (paths .operators rfl (by simp [Flag.accepts]) _ named.1) _ operators
  · exact understood_single (shared .arguments (by decide)) rfl
      (paths .arguments rfl (by simp [Flag.accepts]) _ named.2) _ arguments
  · exact understood_mark (shared .file (by decide)) rfl rfl r.fromFile _ file
  · exact understood_mark (shared .verbose (by decide)) rfl rfl r.verbose _ verbose
  · exact task _ own

theorem readContents_words {r : Request} (named : r.NamesFiles) :
    readContents (knownFlags r.task)
        ((r.settings.map fun setting => setting.1.word setting.2) ++ ["--", r.contents]) =
      .ok (r.settings, r.contents) := by
  have read := readFlags_words (settings_understood named)
    (s := []) (by simpa using r.settings_distinct) ["--", r.contents]
  have stop : readFlags (knownFlags r.task) none r.settings ["--", r.contents] =
      .separator r.settings [r.contents] := rfl
  rw [readContents, read, List.nil_append, stop]

theorem value?_task_settings (task : Task) {flag : Flag} (notProblem : flag ≠ .problem)
    (notNested : flag ≠ .nested) : task.settings.value? flag = none := by
  cases task with
  | solve problem nested =>
    simp [Task.settings, Settings.mark, Settings.value?_append, Settings.value?_single,
      Ne.symm notProblem, Ne.symm notNested]
  | _ => rfl

theorem value?_settings (r : Request) :
    r.settings.value? .operators = r.operators ∧ r.settings.value? .arguments = r.arguments ∧
      r.settings.has .file = r.fromFile ∧ r.settings.has .verbose = r.verbose := by
  have marked : ∀ present : Bool, (if present then some "" else none).isSome = present := by
    decide
  simp [settings, Settings.has, Settings.mark, Settings.value?_append, Settings.value?_single,
    value?_task_settings, marked]

theorem taskOf_settings (r : Request) : taskOf r.task.name r.settings = r.task := by
  cases own : r.task with
  | solve problem nested =>
    cases nested <;>
      simp [Task.name, taskOf, settings, own, Task.settings, Settings.has, Settings.mark,
        Settings.value?_append, Settings.value?_single]
  | _ => rfl

theorem ofWords_words {r : Request} (named : r.NamesFiles) :
    Invocation.ofWords r.words = .request r := by
  have name : ∀ rest, readFlags (Flag.shared ++ [.version]) none [] (r.task.name :: rest) =
      .plain [] r.task.name rest := by
    intro rest
    have plain : Word.ofText r.task.name = .plain r.task.name := by
      cases r.task <;> simp only [Task.name] <;> rfl
    rw [readFlags.eq_def]
    simp only [plain]
  have task : r.task.name ≠ "help" := by
    cases r.task <;> simp [Task.name]
  obtain ⟨operators, arguments, file, verbose⟩ := r.value?_settings
  rw [Invocation.ofWords, words, List.cons_append, name]
  simp only [task, ↓reduceIte, taskFlags_name, readContents_words named, taskOf_settings, operators,
    arguments, file, verbose]
  simp [Settings.value?, Settings.has]

end Request

end WordProblem.CommandLine
