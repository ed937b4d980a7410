import InlineProject.Configuration
import InlineProject.Proofs.DiskWays
import InlineProject.Proofs.PrintedData
import InlineProject.Proofs.YamlValues
/-!
How the loading of settings fails. The user is told of a document that is malformed, of one that is no mapping, and
of a mode that does not exist. Bytes that are no text, scalars that do not keep what their kind promises and numbers
that are too long to be written are failures that nobody is told of.
-/

namespace InlineProject.Configuration

open Yaml (Datum Loaded Value)

variable {α β : Type}

/-! ### Steps that fail -/

-- The failures of a step are those of a sort.
def FailsBy (sort : Error → Prop) (r : Except Error α) : Prop := ∀ e, r = .error e ↔ sort e

theorem failsBy_bind {first later : Error → Prop} {r : Except Error α} {f : α → Except Error β}
    (fails : FailsBy first r) (next : ∀ x, r = .ok x → FailsBy later (f x)) :
    FailsBy (fun e => first e ∨ (∀ e', ¬first e') ∧ later e) (r >>= f) := by
  intro e
  cases done : r with
  | error other =>
    have failed : first other := (fails other).mp done
    constructor
    · intro same
      cases same
      exact .inl failed
    · rintro (failed' | ⟨none, _⟩)
      · cases done.symm.trans ((fails e).mpr failed')
        rfl
      · exact absurd failed (none other)
  | ok x =>
    have none (e' : Error) : ¬first e' := by
      intro failed
      cases done.symm.trans ((fails e').mpr failed)
    change f x = .error e ↔ _
    rw [next x done e]
    exact ⟨fun failed => .inr ⟨none, failed⟩, fun failed => (failed.resolve_left (none e)).2⟩

/-- What a number ends in that is too long to be written. -/
def tooLong : Error := .failure (.number .textTooLong)

-- A step that fails in one case alone, because of a number.
def Overruns (p : Prop) (r : Except Error α) : Prop := FailsBy (fun e => p ∧ e = tooLong) r

theorem Overruns.congr {p q : Prop} {r : Except Error α} (overruns : Overruns p r) (same : p ↔ q) : Overruns q r := by
  intro e
  rw [overruns e, same]

theorem overruns_ok {p : Prop} (never : ¬p) (x : α) : Overruns p (.ok x : Except Error α) :=
  fun _ => ⟨nofun, fun impossible => absurd impossible.1 never⟩

theorem overruns_bind {p q : Prop} {r : Except Error α} {f : α → Except Error β} (first : Overruns p r)
    (next : ∀ x, Overruns q (f x)) : Overruns (p ∨ q) (r >>= f) := by
  intro e
  rw [failsBy_bind first (fun x _ => next x) e]
  constructor
  · rintro (⟨failed, same⟩ | ⟨_, failed, same⟩)
    · exact ⟨.inl failed, same⟩
    · exact ⟨.inr failed, same⟩
  · rintro ⟨failed, same⟩
    by_cases early : p
    · exact .inl ⟨early, same⟩
    · exact .inr ⟨fun _ impossible => early impossible.1, failed.resolve_left early, same⟩

-- The failures of a step in front of one that itself starts with numbers.
theorem failsBy_after {p q : Prop} {later : Error → Prop} {r : Except Error α} {f : α → Except Error β}
    (first : Overruns p r) (next : ∀ x, FailsBy (fun e => q ∧ e = tooLong ∨ ¬q ∧ later e) (f x)) :
    FailsBy (fun e => (p ∨ q) ∧ e = tooLong ∨ ¬(p ∨ q) ∧ later e) (r >>= f) := by
  intro e
  rw [failsBy_bind first (fun x _ => next x) e]
  by_cases early : p
  · simp [early]
  · simp [early]

-- What is made of the result does not fail.
theorem overruns_then {p : Prop} {r : Except Error α} (first : Overruns p r) (f : α → β) :
    Overruns p (r >>= fun x => .ok (f x)) :=
  (overruns_bind first fun x => overruns_ok id (f x)).congr (or_iff_left id)

/-! ### Single settings -/

-- A number with more digits than are written.
def Overlong (v : Option Value) : Prop := ∃ i : Int, v = some (.datum (.int i)) ∧ ¬Integer.Short i

-- How a text or a number reads.
inductive Reads : Datum → String → Prop where
  | text (t : Text) : Reads (.text t) t.toStringLossy
  | int {i : Int} (short : Integer.Short i) : Reads (.int i) (toString i)
  | real (x : Binary64) : Reads (.real x) x.text

variable {d : Datum} {v : Option Value} {s : String}

theorem textOf_short {i : Int} (short : Integer.Short i) : textOf (.int i) = .ok (some (toString i)) := by
  change (liftNumber (Integer.write i) >>= fun s => Except.ok (some s)) = _
  rw [Integer.write_exact.mpr ⟨short, rfl⟩]
  rfl

theorem textOf_long {i : Int} (long : ¬Integer.Short i) : textOf (.int i) = .error tooLong := by
  change (liftNumber (Integer.write i) >>= fun s => Except.ok (some s)) = _
  rw [Integer.write_long long]
  rfl

theorem textOf_overruns : Overruns (Overlong (some (.datum d))) (textOf d) := by
  cases d with
  | int i =>
    by_cases short : Integer.Short i
    · rw [textOf_short short]
      refine overruns_ok ?_ _
      rintro ⟨_, same, long⟩
      cases same
      exact long short
    · rw [textOf_long short]
      intro e
      constructor
      · intro same
        cases same
        exact ⟨⟨i, rfl, short⟩, rfl⟩
      · rintro ⟨_, rfl⟩
        rfl
  | _ => exact overruns_ok (fun ⟨_, same, _⟩ => nomatch same) _

theorem textOf_exact : textOf d = .ok (some s) ↔ Reads d s := by
  constructor
  · intro done
    cases d with
    | text t =>
      cases done
      exact .text t
    | int i =>
      by_cases short : Integer.Short i
      · rw [textOf_short short] at done
        cases done
        exact .int short
      · rw [textOf_long short] at done
        cases done
    | real x =>
      cases done
      exact .real x
    | _ => cases done
  · intro reads
    cases reads with
    | text t => rfl
    | int short => exact textOf_short short
    | real x => rfl

theorem setting_overruns : Overruns (Overlong v) (setting v) := by
  unfold setting
  split
  · exact overruns_then textOf_overruns _
  · rename_i noDatum
    refine overruns_ok ?_ _
    rintro ⟨i, same, _⟩
    exact noDatum _ same

theorem settingOr_overruns {otherwise : String} : Overruns (Overlong v) (settingOr v otherwise) :=
  overruns_then setting_overruns _

theorem setting_exact : setting v = .ok (some s) ↔ s ≠ "" ∧ ∃ d, v = some (.datum d) ∧ Reads d s := by
  unfold setting
  split
  · rename_i d
    have given : (∃ d', some (Value.datum d) = some (.datum d') ∧ Reads d' s) ↔ textOf d = .ok (some s) := by
      rw [textOf_exact]
      constructor
      · rintro ⟨_, same, reads⟩
        cases same
        exact reads
      · exact fun reads => ⟨d, rfl, reads⟩
    rw [given]
    cases textOf d with
    | error e => exact ⟨nofun, fun ⟨_, impossible⟩ => nomatch impossible⟩
    | ok o =>
      change Except.ok (o.filter fun s => !s.isEmpty) = .ok (some s) ↔ s ≠ "" ∧ Except.ok o = .ok (some s)
      rw [Except.ok.injEq, Except.ok.injEq, Option.filter_eq_some_iff, Bool.not_eq_true', and_comm,
        ← Bool.not_eq_true, String.isEmpty_iff]
  · rename_i noDatum
    exact ⟨nofun, fun ⟨_, d, same, _⟩ => absurd same (noDatum d)⟩

/-! ### Lists of settings -/

-- The values in a list.
def itemsAt (l : Loaded) : Option Value → List (Option Value)
  | some (.list ids) => ids.map l.value?
  | _ => []

theorem itemOf_overruns : Overruns (Overlong (some (.datum d))) (itemOf d) := by
  unfold itemOf
  split
  · exact overruns_ok (fun ⟨_, same, _⟩ => nomatch same) _
  · exact textOf_overruns

theorem itemsOf_overruns {ds : List Datum} : Overruns (∃ d ∈ ds, Overlong (some (.datum d))) (itemsOf ds) := by
  induction ds with
  | nil => exact overruns_ok (fun ⟨_, impossible, _⟩ => nomatch impossible) _
  | cons d rest ih =>
    unfold itemsOf
    refine (overruns_bind itemOf_overruns fun _ => overruns_then ih _).congr ?_
    simp only [List.mem_cons, exists_eq_or_imp]

theorem overlong_dataOf {l : Loaded} {ids : List Nat} :
    (∃ d ∈ dataOf l ids, Overlong (some (.datum d))) ↔ ∃ w ∈ ids.map l.value?, Overlong w := by
  unfold dataOf
  constructor
  · rintro ⟨d, member, long⟩
    obtain ⟨id, listed, found⟩ := List.mem_filterMap.mp member
    split at found
    · rename_i there
      cases found
      exact ⟨_, List.mem_map.mpr ⟨id, listed, there⟩, long⟩
    · cases found
  · rintro ⟨w, member, i, rfl, long⟩
    obtain ⟨id, listed, there⟩ := List.mem_map.mp member
    exact ⟨.int i, List.mem_filterMap.mpr ⟨id, listed, by rw [there]⟩, i, rfl, long⟩

theorem settings_overruns {l : Loaded} : Overruns (∃ w ∈ itemsAt l v, Overlong w) (settings l v) := by
  have quiet {v : Option Value} {r : List String} (none : itemsAt l v = []) :
      Overruns (∃ w ∈ itemsAt l v, Overlong w) (.ok r) := by
    rw [none]
    exact overruns_ok (fun ⟨_, impossible, _⟩ => nomatch impossible) _
  unfold settings
  split
  · exact quiet rfl
  · exact quiet rfl
  · exact itemsOf_overruns.congr overlong_dataOf
  · rename_i noList
    refine quiet ?_
    unfold itemsAt
    split
    · exact absurd rfl (noList _)
    · rfl

/-! ### Groups of settings -/

variable {field : String → Option Value}

def projectNames : List String := ["extension", "default_xml", "readme", "global_usings"]

def commitNames : List String := ["author_name", "author_email", "commit_message", "init_message"]

theorem projectOf_overruns : Overruns (∃ v ∈ projectNames.map field, Overlong v) (projectOf field) := by
  unfold projectOf
  refine (overruns_bind setting_overruns fun _ => overruns_bind settingOr_overruns fun _ =>
    overruns_bind settingOr_overruns fun _ => overruns_then settingOr_overruns _).congr ?_
  simp [projectNames]

theorem commitsOf_overruns : Overruns (∃ v ∈ commitNames.map field, Overlong v) (commitsOf field) := by
  unfold commitsOf
  refine (overruns_bind settingOr_overruns fun _ => overruns_bind settingOr_overruns fun _ =>
    overruns_bind settingOr_overruns fun _ => overruns_then settingOr_overruns _).congr ?_
  simp [commitNames]

/-! ### The mode -/

-- A text or a number that names no mode, in letters of any case and with blanks around it. An empty one is none.
def NoMode (v : Option Value) : Prop :=
  ∃ d s, v = some (.datum d) ∧ Reads d s ∧ s ≠ "" ∧
    ∀ mode : MarkMode, Lowercase.ofString (Blank.trimString s) ≠ mode.name

theorem noMode_exact :
    NoMode v ↔ ∃ s, setting v = .ok (some s) ∧
      ∀ mode : MarkMode, Lowercase.ofString (Blank.trimString s) ≠ mode.name := by
  constructor
  · rintro ⟨d, s, there, reads, filled, strange⟩
    exact ⟨s, setting_exact.mpr ⟨filled, d, there, reads⟩, strange⟩
  · rintro ⟨s, given, strange⟩
    obtain ⟨filled, d, there, reads⟩ := setting_exact.mp given
    exact ⟨d, s, there, reads, filled, strange⟩

theorem mode_listed (mode : MarkMode) : mode ∈ MarkMode.all := by
  cases mode <;> simp [MarkMode.all]

theorem modeNamed_fails :
    FailsBy (fun e => (∀ mode : MarkMode, Lowercase.ofString (Blank.trimString s) ≠ mode.name) ∧
      e = .complaint .unknownMode) (modeNamed s) := by
  intro e
  unfold modeNamed
  dsimp only
  split
  · rename_i mode found
    have named : mode.name = Lowercase.ofString (Blank.trimString s) := by
      simpa only [decide_eq_true_eq] using List.find?_some found
    exact ⟨nofun, fun ⟨strange, _⟩ => absurd named.symm (strange mode)⟩
  · rename_i missing
    have strange (mode : MarkMode) : Lowercase.ofString (Blank.trimString s) ≠ mode.name := by
      have other := List.find?_eq_none.mp missing mode (mode_listed mode)
      simp only [decide_eq_true_eq] at other
      exact Ne.symm other
    constructor
    · intro same
      exact ⟨strange, (Except.error.inj same).symm⟩
    · rintro ⟨_, same⟩
      rw [same]

theorem modeOf_fails :
    FailsBy (fun e => Overlong (field "attribute_rewrite") ∧ e = tooLong ∨
      NoMode (field "attribute_rewrite") ∧ e = .complaint .unknownMode) (modeOf field) := by
  intro e
  have overlong := (@setting_overruns (field "attribute_rewrite") e).symm
  beta_reduce at overlong ⊢
  unfold modeOf
  rw [noMode_exact, overlong]
  cases setting (field "attribute_rewrite") with
  | error other =>
    change Except.error other = .error e ↔ _
    simp
  | ok found =>
    cases found with
    | none =>
      change Except.ok _ = Except.error e ↔ _
      simp
    | some s =>
      dsimp only [bind, Except.bind]
      rw [modeNamed_fails e]
      simp only [reduceCtorEq, false_or, Except.ok.injEq, Option.some.injEq, exists_eq_left']

-- A list behind the mode is read where there is such a mode.
theorem modeOf_before {p : Prop} {f : MarkMode → Except Error α} (next : ∀ mode, Overruns p (f mode)) :
    FailsBy (fun e => Overlong (field "attribute_rewrite") ∧ e = tooLong ∨
      ¬Overlong (field "attribute_rewrite") ∧ (NoMode (field "attribute_rewrite") ∧ e = .complaint .unknownMode ∨
        ¬NoMode (field "attribute_rewrite") ∧ p ∧ e = tooLong)) (modeOf field >>= f) := by
  intro e
  rw [failsBy_bind modeOf_fails (fun mode _ => next mode) e]
  by_cases long : Overlong (field "attribute_rewrite")
  · have noText : ¬NoMode (field "attribute_rewrite") := by
      rintro ⟨d, s, there, reads, _⟩
      obtain ⟨i, same, tooLong⟩ := long
      cases there.symm.trans same
      cases reads with
      | int short => exact tooLong short
    simp [long, noText]
  · by_cases strange : NoMode (field "attribute_rewrite")
    · simp [long, strange]
    · simp [long, strange]

/-! ### A mapping -/

variable {l : Loaded} {root : Path}

def group (l : Loaded) (name field : String) : Option Value := (l.field? l.top name).bind fun v => l.field? v field

def modeAt (l : Loaded) : Option Value := group l "descriptor" "attribute_rewrite"

-- The settings that are read one by one. They come before those in lists.
def singles (l : Loaded) : List (Option Value) :=
  [l.field? l.top "output", l.field? l.top "workspace"] ++ projectNames.map (group l "project")
    ++ commitNames.map (group l "git") ++ [modeAt l]

def suffixesAt (l : Loaded) : List (Option Value) := itemsAt l (group l "sources" "suffixes")

theorem mem_singles : (∃ v ∈ singles l, Overlong v) ↔
    Overlong (l.field? l.top "output") ∨ Overlong (l.field? l.top "workspace") ∨
      (∃ v ∈ projectNames.map (group l "project"), Overlong v) ∨
      (∃ v ∈ commitNames.map (group l "git"), Overlong v) ∨ Overlong (modeAt l) := by
  simp only [singles, List.mem_append, List.mem_cons, List.not_mem_nil, or_false, or_and_right, exists_or,
    exists_eq_left, or_assoc]

-- What is wrong with the settings in a mapping. The mode is looked at after all other single settings and before the
-- list, so a number among the former hides an unknown mode, and an unknown mode hides numbers in the list.
def Misread (l : Loaded) (e : Error) : Prop :=
  (∃ v ∈ singles l, Overlong v) ∧ e = tooLong ∨
    (¬∃ v ∈ singles l, Overlong v) ∧ (NoMode (modeAt l) ∧ e = .complaint .unknownMode ∨
      ¬NoMode (modeAt l) ∧ (∃ v ∈ suffixesAt l, Overlong v) ∧ e = tooLong)

theorem ofDocument_fails : FailsBy (Misread l) (ofDocument root l l.top) := by
  unfold Misread
  rw [mem_singles]
  exact failsBy_after setting_overruns fun _ => failsBy_after setting_overruns fun _ =>
    failsBy_after projectOf_overruns fun _ => failsBy_after commitsOf_overruns fun _ =>
    modeOf_before fun _ => overruns_then settings_overruns _

-- Only a mapping with entries has fields.
theorem mapping_of_field {top : Value} {name : String} {w : Value} (given : l.field? top name = some w) :
    top.isDict = true ∧ top.isVoid = false := by
  unfold Loaded.field? at given
  split at given
  · rename_i entries
    refine ⟨rfl, ?_⟩
    cases entries with
    | nil => cases given
    | cons => rfl
  · cases given

theorem mapping_of_group {name field : String} {w : Value} (given : group l name field = some w) :
    l.top.isDict = true ∧ l.top.isVoid = false := by
  obtain ⟨v, named, _⟩ := Option.bind_eq_some_iff.mp given
  exact mapping_of_field named

theorem mapping_of_single {w : Value} (listed : some w ∈ singles l) : l.top.isDict = true ∧ l.top.isVoid = false := by
  simp only [singles, modeAt, List.mem_append, List.mem_cons, List.mem_map, List.not_mem_nil, or_false] at listed
  rcases listed with (((given | given) | ⟨_, _, given⟩) | ⟨_, _, given⟩) | given
  · exact mapping_of_field given.symm
  · exact mapping_of_field given.symm
  · exact mapping_of_group given
  · exact mapping_of_group given
  · exact mapping_of_group given.symm

theorem mapping_of_suffix {w : Option Value} (listed : w ∈ suffixesAt l) :
    l.top.isDict = true ∧ l.top.isVoid = false := by
  unfold suffixesAt itemsAt at listed
  split at listed
  · rename_i given
    exact mapping_of_group given
  · cases listed

/-! ### The file -/

variable {cs : List Char} {name : String} {content : ByteArray} {e : Error}

-- What is wrong with the text of a file.
inductive Flaw (cs : List Char) (name : String) : Error → Prop where
  | malformed {e : Yaml.Error} (failed : Yaml.load cs = .error e) (malformed : e.isMalformed = true) :
      Flaw cs name (.complaint (.malformed name e))
  | unloadable {e : Yaml.Error} (failed : Yaml.load cs = .error e) (unloadable : Yaml.Unloadable cs e) :
      Flaw cs name (.failure (.descriptor e))
  | notMapping {l : Loaded} (loaded : Yaml.load cs = .ok l) (filled : l.top.isVoid = false)
      (other : l.top.isDict = false) : Flaw cs name (.complaint .notMapping)
  | noMode {l : Loaded} (loaded : Yaml.load cs = .ok l) (short : ∀ v ∈ singles l, ¬Overlong v)
      (strange : NoMode (modeAt l)) : Flaw cs name (.complaint .unknownMode)
  | single {l : Loaded} {v : Option Value} (loaded : Yaml.load cs = .ok l) (listed : v ∈ singles l)
      (long : Overlong v) : Flaw cs name tooLong
  | item {l : Loaded} {v : Option Value} (loaded : Yaml.load cs = .ok l) (known : ¬NoMode (modeAt l))
      (listed : v ∈ suffixesAt l) (long : Overlong v) : Flaw cs name tooLong

theorem flaw_of_misread (loaded : Yaml.load cs = .ok l) (misread : Misread l e) : Flaw cs name e := by
  rcases misread with ⟨⟨v, listed, long⟩, rfl⟩ | ⟨short, ⟨strange, rfl⟩ | ⟨known, ⟨v, listed, long⟩, rfl⟩⟩
  · exact .single loaded listed long
  · exact .noMode loaded (fun v listed long => short ⟨v, listed, long⟩) strange
  · exact .item loaded known listed long

-- The flaws of a document that can be loaded are that it is no mapping, and those of the settings in it.
theorem flaw_of_loaded (loaded : Yaml.load cs = .ok l) (flaw : Flaw cs name e) : l.top.isVoid = false ∧
    (l.top.isDict = true ∧ Misread l e ∨ l.top.isDict = false ∧ e = .complaint .notMapping) := by
  cases flaw with
  | malformed failed => cases loaded.symm.trans failed
  | unloadable failed => cases loaded.symm.trans failed
  | notMapping loaded' filled other =>
    cases loaded.symm.trans loaded'
    exact ⟨filled, .inr ⟨other, rfl⟩⟩
  | noMode loaded' short strange =>
    cases loaded.symm.trans loaded'
    obtain ⟨d, s, there, _⟩ := id strange
    obtain ⟨mapping, filled⟩ := mapping_of_group there
    exact ⟨filled, .inl ⟨mapping, .inr ⟨fun ⟨v, listed, long⟩ => short v listed long, .inl ⟨strange, rfl⟩⟩⟩⟩
  | single loaded' listed long =>
    cases loaded.symm.trans loaded'
    obtain ⟨i, rfl, _⟩ := id long
    obtain ⟨mapping, filled⟩ := mapping_of_single listed
    exact ⟨filled, .inl ⟨mapping, .inl ⟨⟨_, listed, long⟩, rfl⟩⟩⟩
  | item loaded' known listed long =>
    cases loaded.symm.trans loaded'
    obtain ⟨mapping, filled⟩ := mapping_of_suffix listed
    refine ⟨filled, .inl ⟨mapping, ?_⟩⟩
    by_cases early : ∃ v ∈ singles l, Overlong v
    · exact .inl ⟨early, rfl⟩
    · exact .inr ⟨early, .inr ⟨known, ⟨_, listed, long⟩, rfl⟩⟩

theorem ofText_flaw (filled : Blank.isBlankText cs = false) : ofText root name cs = .error e ↔ Flaw cs name e := by
  unfold ofText
  rw [if_neg (Bool.eq_false_iff.mp filled)]
  cases loaded : Yaml.load cs with
  | error cause =>
    dsimp only
    constructor
    · intro failed
      split at failed
      · rename_i malformed
        cases failed
        exact .malformed loaded malformed
      · rename_i sincere
        cases failed
        exact .unloadable loaded ((Yaml.load_failure loaded).resolve_left sincere)
    · intro flaw
      cases flaw with
      | malformed failed malformed =>
        cases loaded.symm.trans failed
        rw [if_pos malformed]
      | unloadable failed unloadable =>
        cases loaded.symm.trans failed
        rw [if_neg (Bool.eq_false_iff.mp (Yaml.unloadable_sincere unloadable))]
      | notMapping loaded' => cases loaded.symm.trans loaded'
      | noMode loaded' => cases loaded.symm.trans loaded'
      | single loaded' => cases loaded.symm.trans loaded'
      | item loaded' => cases loaded.symm.trans loaded'
  | ok l =>
    dsimp only
    constructor
    · intro failed
      split at failed
      · cases failed
      · rename_i filled
        split at failed
        · exact flaw_of_misread loaded ((ofDocument_fails e).mp failed)
        · rename_i other
          cases failed
          exact .notMapping loaded (Bool.eq_false_iff.mpr filled) (Bool.eq_false_iff.mpr other)
    · intro flaw
      obtain ⟨filled, ⟨mapping, misread⟩ | ⟨other, rfl⟩⟩ := flaw_of_loaded loaded flaw
      · rw [if_neg (Bool.eq_false_iff.mp filled), if_pos mapping]
        exact (ofDocument_fails e).mpr misread
      · rw [if_neg (Bool.eq_false_iff.mp filled), if_neg (Bool.eq_false_iff.mp other)]

-- The text of a file; one of blanks alone holds no document.
def Holds (content : ByteArray) (cs : List Char) : Prop :=
  (∃ s, Utf8.decode content = .ok s ∧ Lines.unifyBreaks s.toList = cs) ∧ Blank.isBlankText cs = false

-- Why a file of such bytes is refused.
inductive Fault (content : ByteArray) (name : String) : Error → Prop where
  | encoding {e : Utf8.Failure} (failed : Utf8.decode content = .error e) : Fault content name (.failure (.encoding e))
  | text {cs : List Char} {e : Error} (holds : Holds content cs) (flaw : Flaw cs name e) : Fault content name e

theorem ofBytes_fault : ofBytes root name content = .error e ↔ Fault content name e := by
  unfold ofBytes
  cases decoded : Utf8.decode content with
  | error cause =>
    constructor
    · intro failed
      cases failed
      exact .encoding decoded
    · intro fault
      cases fault with
      | encoding failed =>
        cases decoded.symm.trans failed
        rfl
      | text holds =>
        obtain ⟨⟨s, decoded', _⟩, _⟩ := holds
        cases decoded.symm.trans decoded'
  | ok s =>
    dsimp only
    constructor
    · intro failed
      cases filled : Blank.isBlankText (Lines.unifyBreaks s.toList) with
      | true =>
        unfold ofText at failed
        rw [if_pos filled] at failed
        cases failed
      | false => exact .text ⟨⟨s, decoded, rfl⟩, filled⟩ ((ofText_flaw filled).mp failed)
    · intro fault
      cases fault with
      | encoding failed => cases decoded.symm.trans failed
      | text holds flaw =>
        obtain ⟨⟨s', decoded', rfl⟩, filled⟩ := holds
        cases decoded.symm.trans decoded'
        exact (ofText_flaw filled).mpr flaw

-- What can be loaded: a text that holds no document, or one with a mapping or a void value for its root, where the
-- mode exists and each number that is read can be written.
structure Usable (content : ByteArray) : Prop where
  decodes : ∃ s, Utf8.decode content = .ok s
  loads : ∀ cs, Holds content cs → ∃ l, Yaml.load cs = .ok l ∧ (l.top.isDict = true ∨ l.top.isVoid = true) ∧
    ¬NoMode (modeAt l) ∧ ∀ v ∈ singles l ++ suffixesAt l, ¬Overlong v

theorem usable_exact : (∀ e, ¬Fault content name e) ↔ Usable content := by
  constructor
  · intro free
    refine ⟨?_, fun cs holds => ?_⟩
    · cases decoded : Utf8.decode content with
      | error cause => exact absurd (.encoding decoded) (free _)
      | ok s => exact ⟨s, rfl⟩
    · have clean (e : Error) : ¬Flaw cs name e := fun flaw => free e (.text holds flaw)
      cases loaded : Yaml.load cs with
      | error cause =>
        rcases Yaml.load_failure loaded with malformed | unloadable
        · exact absurd (.malformed loaded malformed) (clean _)
        · exact absurd (.unloadable loaded unloadable) (clean _)
      | ok l =>
        have short : ∀ v ∈ singles l, ¬Overlong v := fun v listed long => clean _ (.single loaded listed long)
        have known : ¬NoMode (modeAt l) := fun strange => clean _ (.noMode loaded short strange)
        refine ⟨l, rfl, ?_, known, fun v listed long => ?_⟩
        · by_contra other
          rw [not_or, Bool.not_eq_true, Bool.not_eq_true] at other
          exact clean _ (.notMapping loaded other.2 other.1)
        · rcases List.mem_append.mp listed with early | late
          · exact short v early long
          · exact clean _ (.item loaded known late long)
  · rintro ⟨⟨s, decoded⟩, loads⟩ e fault
    cases fault with
    | encoding failed => cases decoded.symm.trans failed
    | text holds flaw =>
      obtain ⟨l, loaded, root, known, short⟩ := loads _ holds
      obtain ⟨filled, ⟨_, misread⟩ | ⟨other, _⟩⟩ := flaw_of_loaded loaded flaw
      · rcases misread with ⟨⟨v, listed, long⟩, _⟩ | ⟨_, ⟨strange, _⟩ | ⟨_, ⟨v, listed, long⟩, _⟩⟩
        · exact short v (List.mem_append_left _ listed) long
        · exact known strange
        · exact short v (List.mem_append_right _ listed) long
      · rcases root with mapping | void
        · rw [other] at mapping
          cases mapping
        · rw [filled] at void
          cases void

/-! ### Loading -/

variable {d : Disk} {here p file : Path}

-- The file that a path stands for. In a directory it has a name of its own.
inductive Names (d : Disk) (here p : Path) : Path → Prop where
  | within (there : d.look (here ++ p) = .ok (some .directory)) : Names d here p ((p.join fileName).resolve here)
  | itself {item : Option Item} (there : d.look (here ++ p) = .ok item) (other : item ≠ some .directory) :
      Names d here p (p.resolve here)

-- A file that is there, with its content.
structure Stored (d : Disk) (here p file : Path) (content : ByteArray) : Prop where
  clean : p.hasNull = false
  names : Names d here p file
  there : d.look file = .ok (some (.file content))

theorem join_fileName : (p.join fileName).parts = p.parts ++ [fileName] := by
  have relative : Path.ofString fileName = ⟨.here, [fileName]⟩ := by decide +kernel
  unfold Path.join
  rw [relative]
  rfl

theorem Stored.locate (stored : Stored d here p file content) :
    (Configuration.locate here p).run.run d = (.ok file, d) := by
  unfold Configuration.locate
  rw [DiskAction.run_bind, DiskAction.run_isDirectory]
  cases stored.names with
  | within there =>
    have clean : (p.join fileName).hasNull = false := by
      unfold Path.hasNull
      rw [join_fileName, List.any_append]
      exact (Bool.or_eq_false_iff).mpr ⟨stored.clean, by decide +kernel⟩
    rw [there]
    change (DiskAction.resolve here (p.join fileName)).run.run d = _
    unfold DiskAction.resolve
    rw [clean]
    rfl
  | itself there other =>
    rw [there]
    dsimp only
    rw [decide_eq_false other]
    change (DiskAction.resolve here p).run.run d = _
    unfold DiskAction.resolve
    rw [stored.clean]
    rfl

theorem run_read (there : d.look file = .ok (some (.file content))) :
    (DiskAction.read file).run.run d = (.ok content, d) := by
  obtain ⟨located, held⟩ := Disk.look_some there
  rw [DiskAction.run_read, located]
  dsimp only
  rw [held]

theorem load_stored (stored : Stored d here p file content) :
    load d here p = ofBytes file.parent file.name content := by
  have found : (contentAt here p).run.run d = (.ok (file, some (.ok content)), d) := by
    unfold contentAt
    rw [DiskAction.run_bind, stored.locate]
    dsimp only
    rw [DiskAction.run_bind, DiskAction.run_pathExists, stored.there]
    dsimp only
    rw [Option.isSome_some, if_pos rfl, DiskAction.run_bind, DiskAction.run_get]
    dsimp only
    rw [run_read stored.there]
    rfl
  unfold load
  rw [found]

-- What a file is refused for, of whatever bytes it consists, and which files are loaded. The user is told of a
-- document that is malformed or no mapping and of a mode that does not exist, and of nothing else.
theorem load_faults_exact (stored : Stored d here p file content) :
    (∀ e, load d here p = .error e ↔ Fault content file.name e) ∧
      ((∃ c, load d here p = .ok c) ↔ Usable content) := by
  rw [load_stored stored]
  refine ⟨fun e => ofBytes_fault, ?_⟩
  rw [← @usable_exact file.name content]
  constructor
  · rintro ⟨c, loaded⟩ e fault
    cases loaded.symm.trans (ofBytes_fault.mpr fault)
  · intro free
    cases loaded : ofBytes file.parent file.name content with
    | error e => exact absurd (ofBytes_fault.mp loaded) (free e)
    | ok c => exact ⟨c, rfl⟩

/-! ### A directory with one file -/

def settled (content : ByteArray) : Disk := ⟨[(["work"], .directory), (["work", fileName], .file content)]⟩

theorem settled_stored {content : ByteArray} :
    Stored (settled content) ⟨.root, []⟩ ⟨.here, ["work"]⟩ ⟨.root, ["work", fileName]⟩ content where
  clean := by decide
  names := .within rfl
  there := rfl

-- A byte that is no text and a date without a day in the calendar are failures that are not told. An empty list
-- stands for no settings.
theorem load_faults_exact_settled :
    load (settled ⟨#[0xFF]⟩) ⟨.root, []⟩ ⟨.here, ["work"]⟩
        = .error (.failure (.encoding ⟨0xFF, 0, 1, .invalidStart⟩)) ∧
      Fault "2024-13-45".toUTF8 fileName (.failure (.descriptor (.date .month))) ∧
      Fault "descriptor:\n  attribute_rewrite: TEX\n".toUTF8 fileName (.complaint .unknownMode) ∧
      Usable "descriptor:\n  attribute_rewrite: ' TEXT '\n".toUTF8 ∧ Usable "[]".toUTF8 := by
  refine ⟨((load_faults_exact settled_stored).1 _).mpr (.encoding (by decide +kernel)),
    ((load_faults_exact settled_stored).1 _).mp (by decide +kernel),
    ((load_faults_exact settled_stored).1 _).mp (by decide +kernel),
    (load_faults_exact settled_stored).2.mp ⟨{ default ⟨.root, ["work"]⟩ with mode := .text }, by decide +kernel⟩,
    (load_faults_exact settled_stored).2.mp ⟨default ⟨.root, ["work"]⟩, by decide +kernel⟩⟩

end InlineProject.Configuration
