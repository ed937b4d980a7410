import InlineProject.Proofs.ArtifactFiles
import InlineProject.Proofs.FailedRun
/-!
Under which names the projects of many runs stand in the registry. A project is entered under the name that its file
has without its suffix, and an earlier one is looked for under the base name of the source; the two are the same
where the configured suffix is a single one.
-/

namespace InlineProject

namespace Path

variable {p : Path} {front back text : String}

/-! ### Names and their suffixes -/

-- What stands behind the last dot of a name.
theorem behind_dot (last : '.' ∉ back.toList) :
    ((front ++ "." ++ back).toList.reverse.takeWhile (· != '.')) = back.toList.reverse := by
  have split : (front ++ "." ++ back).toList.reverse
      = back.toList.reverse ++ '.' :: front.toList.reverse := by
    simp [String.toList_append]
  have others : ∀ c ∈ back.toList.reverse, (c != '.') = true := by
    intro c member
    refine bne_iff_ne.mpr fun dot => last ?_
    rw [← dot]
    exact List.mem_reverse.mp member
  rw [split, List.takeWhile_append_of_pos others, List.takeWhile_cons_of_neg (by decide), List.append_nil]

theorem splitName_dot (some : front ≠ "") (more : back ≠ "") (last : '.' ∉ back.toList) :
    splitName (front ++ "." ++ back) = (front, "." ++ back) := by
  have ahead : front.toList.length ≠ 0 := fun none =>
    some (String.toList_eq_nil_iff.mp (List.length_eq_zero_iff.mp none))
  have behind : back.toList.length ≠ 0 := fun none =>
    more (String.toList_eq_nil_iff.mp (List.length_eq_zero_iff.mp none))
  have letters : (front ++ "." ++ back).toList = front.toList ++ ("." ++ back).toList := by
    rw [String.append_assoc, String.toList_append]
  have total : (front ++ "." ++ back).toList.length = front.toList.length + 1 + back.toList.length := by
    simp [String.toList_append]
    omega
  have before : (front ++ "." ++ back).toList.length - back.toList.length - 1 = front.toList.length := by omega
  have apart : ¬((back.toList.length = front.toList.length + 1 + back.toList.length
      || back.toList.length = 0 || front.toList.length = 0) = true) := by
    simp only [Bool.or_eq_true, decide_eq_true_eq, not_or]
    omega
  unfold splitName
  simp only [behind_dot last, List.length_reverse, total]
  rw [show front.toList.length + 1 + back.toList.length - back.toList.length - 1 = front.toList.length by omega,
    if_neg apart, letters, List.take_left, List.drop_left, String.ofList_toList, String.ofList_toList]

theorem splitName_end : splitName (front ++ ".") = (front ++ ".", "") := by
  have behind : ((front ++ ".").toList.reverse.takeWhile (· != '.')) = [] := by
    rw [String.toList_append, List.reverse_append]
    exact List.takeWhile_cons_of_neg (by decide)
  unfold splitName
  simp only [behind]
  rw [if_pos (by simp)]

-- A text with a dot in it has a last one.
theorem exists_last_dot (dot : '.' ∈ text.toList) :
    ∃ before behind, text = before ++ "." ++ behind ∧ '.' ∉ behind.toList := by
  obtain ⟨behind, before, split, none⟩ := List.eq_append_cons_of_mem (List.mem_reverse.mpr dot)
  refine ⟨String.ofList before.reverse, String.ofList behind.reverse, ?_, ?_⟩
  · refine String.toList_inj.mp ?_
    rw [← List.reverse_reverse text.toList, split]
    simp [String.toList_append]
  · rw [String.toList_ofList, List.mem_reverse]
    exact none

-- A name keeps its front exactly where one dot parts it from a suffix that is not empty.
theorem stem_of_suffix (some : front ≠ "") :
    (splitName (front ++ "." ++ back)).1 = front ↔ back ≠ "" ∧ '.' ∉ back.toList := by
  have longer {more : String} (same : front ++ "." ++ more = front) : False := by
    have lengths := congrArg (fun s => s.toList.length) same
    simp only [String.toList_append, List.length_append] at lengths
    change front.toList.length + 1 + more.toList.length = front.toList.length at lengths
    omega
  constructor
  · intro kept
    by_cases more : back = ""
    · rw [more, String.append_empty, splitName_end, ← String.append_empty (s := front ++ ".")] at kept
      exact (longer kept).elim
    · refine ⟨more, fun dot => ?_⟩
      obtain ⟨before, behind, rfl, last⟩ := exists_last_dot dot
      have regroup : front ++ "." ++ (before ++ "." ++ behind) = front ++ "." ++ before ++ "." ++ behind := by
        simp only [String.append_assoc]
      rw [regroup] at kept
      by_cases none : behind = ""
      · rw [none, String.append_empty, splitName_end, String.append_assoc] at kept
        exact longer kept
      · rw [splitName_dot ?_ none last] at kept
        · exact longer kept
        · intro empty
          exact absurd (congrArg String.toList empty) (by simp [String.toList_append])
  · rintro ⟨more, last⟩
    rw [splitName_dot some more last]

theorem splitOn_append {sep : Char} {cs more : List Char} (free : sep ∉ cs) :
    (cs ++ more).splitOn sep = (more.splitOn sep).modifyHead (cs ++ ·) := by
  induction cs with
  | nil =>
    rw [List.nil_append]
    cases more.splitOn sep <;> rfl
  | cons c rest ih =>
    rw [List.mem_cons, not_or] at free
    rw [List.cons_append, List.splitOn_cons_eq_if_modifyHead, if_neg (by simpa using Ne.symm free.1), ih free.2]
    cases more.splitOn sep <;> rfl

-- A name, a dot and what comes behind it are one name again.
theorem plain_dotted (some : front ≠ "") (slash : '/' ∉ front.toList) (single : '/' ∉ back.toList) :
    Plain (front ++ "." ++ back) := by
  have letters : (front ++ "." ++ back).toList = front.toList ++ '.' :: back.toList := by
    rw [String.toList_append, String.toList_append, List.append_assoc]
    rfl
  refine ⟨fun empty => ?_, fun here => ?_, ?_⟩
  · have none := letters.symm.trans (congrArg String.toList empty)
    exact List.append_ne_nil_of_right_ne_nil _ (List.cons_ne_nil _ _) none
  · have lengths := congrArg List.length (letters.symm.trans (congrArg String.toList here))
    rw [List.length_append, List.length_cons] at lengths
    change front.toList.length + (back.toList.length + 1) = 1 at lengths
    exact some (String.toList_eq_nil_iff.mp (List.length_eq_zero_iff.mp (by omega)))
  · rw [letters, List.mem_append, List.mem_cons, not_or, not_or]
    exact ⟨slash, by decide, single⟩

-- A path that begins with a name and a dot has a name of its own.
theorem ofString_dotted (some : front ≠ "") (slash : '/' ∉ front.toList) :
    (ofString (front ++ "." ++ back)).anchor = .here ∧ (ofString (front ++ "." ++ back)).parts ≠ [] := by
  have plain : Plain (front ++ ".") := by
    rw [← String.append_empty (s := front ++ ".")]
    exact plain_dotted some slash List.not_mem_nil
  refine ⟨anchorOf_plain plain, ?_⟩
  unfold ofString
  rw [String.toList_append, splitOn_append plain.2.2]
  cases pieces : back.toList.splitOn '/' with
  | nil => exact absurd pieces (List.splitOn_ne_nil _ _)
  | cons piece rest =>
    have first : Plain (front ++ "." ++ String.ofList piece) := by
      refine plain_dotted some slash ?_
      rw [String.toList_ofList]
      exact not_mem_of_splitOn (pieces ▸ List.mem_cons_self)
    have named : String.ofList ((front ++ ".").toList ++ piece) = front ++ "." ++ String.ofList piece := by
      rw [← String.toList_inj, String.toList_ofList]
      exact (congrArg _ String.toList_ofList.symm).trans String.toList_append.symm
    refine List.ne_nil_of_mem (List.mem_filter.mpr ⟨List.mem_cons_self, ?_⟩)
    rw [named, Bool.and_eq_true, bne_iff_ne, Bool.not_eq_true', Bool.eq_false_iff]
    exact ⟨fun empty => first.1 (String.isEmpty_iff.mp empty), first.2.1⟩

-- Such a path names what it names wherever it starts.
theorem stem_join (some : front ≠ "") (slash : '/' ∉ front.toList) :
    (p.join (front ++ "." ++ back)).stem = (ofString (front ++ "." ++ back)).stem := by
  obtain ⟨relative, named⟩ := @ofString_dotted front back some slash
  have joined : (p.join (front ++ "." ++ back)).parts = p.parts ++ (ofString (front ++ "." ++ back)).parts := by
    unfold join
    change (append p _).parts = _
    unfold append isAbsolute
    rw [relative]
    rfl
  unfold stem name
  rw [joined, List.getLast?_append_of_ne_nil _ named]

theorem stem_join_exact (some : front ≠ "") (slash : '/' ∉ front.toList) (single : '/' ∉ back.toList) :
    (p.join (front ++ "." ++ back)).stem = front ↔ back ≠ "" ∧ '.' ∉ back.toList := by
  have name : (ofString (front ++ "." ++ back)).name = front ++ "." ++ back := by
    rw [ofString_plain (plain_dotted some slash single)]
    rfl
  rw [stem_join some slash]
  unfold stem
  rw [name]
  exact stem_of_suffix some

end Path

/-! ### The configured suffix -/

namespace Configuration

theorem dotted_starts (s : String) : ∃ rest, dotted s = "." ++ rest := by
  unfold dotted
  split
  · rename_i starts
    obtain ⟨rest, letters⟩ := List.head?_eq_some_iff.mp starts
    refine ⟨String.ofList rest, String.toList_inj.mp ?_⟩
    rw [letters, String.toList_append]
    exact congrArg (['.'] ++ ·) String.toList_ofList.symm
  · exact ⟨s, rfl⟩

-- The suffix of project files begins with a dot.
theorem load_extension {d : Disk} {here p : Path} {c : Configuration} (loaded : load d here p = .ok c) :
    ∃ rest, c.project.extension = "." ++ rest := by
  obtain ⟨root, _, rfl | ⟨l, top, settled⟩⟩ := load_cases loaded
  · exact ⟨"csproj", rfl⟩
  · unfold ofDocument at settled
    obtain ⟨_, _, settled⟩ := bind_parts settled
    obtain ⟨_, _, settled⟩ := bind_parts settled
    obtain ⟨project, grouped, settled⟩ := bind_parts settled
    obtain ⟨_, _, settled⟩ := bind_parts settled
    obtain ⟨_, _, settled⟩ := bind_parts settled
    obtain ⟨_, _, settled⟩ := bind_parts settled
    cases settled
    unfold projectOf at grouped
    obtain ⟨extension, _, grouped⟩ := bind_parts grouped
    obtain ⟨_, _, grouped⟩ := bind_parts grouped
    obtain ⟨_, _, grouped⟩ := bind_parts grouped
    obtain ⟨_, _, grouped⟩ := bind_parts grouped
    cases grouped
    cases extension with
    | none => exact ⟨"csproj", rfl⟩
    | some given => exact dotted_starts given

end Configuration

/-! ### Runs on one registry -/

namespace Expansion

open InlineProject.Action InlineProject.Git InlineProject.Registry

-- A file that is to be expanded, and where its project is asked to go.
structure Request where
  file : Path
  asked : Option Path
deriving DecidableEq

namespace Request

def source (r : Request) (e : Expansion) : Path := r.file.resolve e.here

def directory (r : Request) (e : Expansion) : Path := (e.outputOf r.file r.asked).join (r.source e).stem

def projectFile (r : Request) (e : Expansion) : Path := (r.directory e).join (e.projectName (r.source e))

-- The project of a request is entered under the name of its file, with the text of the path to it.
def project (r : Request) (e : Expansion) (now : DateTime) : RegisteredProject :=
  ⟨Text.ofString (r.projectFile e).stem, Text.ofString (r.projectFile e).toString, momentText now⟩

def Enters (r : Request) (e : Expansion) (entry : Text × RegisteredProject) : Prop :=
  ∃ now, entry = (Text.ofString (r.projectFile e).stem, r.project e now)

end Request

variable {σ : Type} {runner : Runner σ} {e : Expansion} {source output directory file : Path} {names : List String}
  {w middle w' : World σ} {asked : Option Path} {parse : String → Source.Unit} {c : Commit}

-- Runs one after another on a registry that was empty at first. Whatever else happens between them and however they
-- end, the registry is handed on.
inductive History (e : Expansion) : List Request → World σ → Prop where
  | begun {w : World σ} (empty : w.registry.entries = []) : History e [] w
  | run {past : List Request} {w middle w' : World σ} {r : Request} {parse : String → Source.Unit}
      {runner : Runner σ} {result : Except Failure Outcome} (history : History e past w)
      (handed : middle.registry = w.registry)
      (ran : (e.processFileBy parse r.file r.asked).run runner middle = (result, w')) : History e (r :: past) w'

-- No name stands twice, and every entry is that of some request.
structure Accounted (e : Expansion) (requests : List Request) (entries : List (Text × RegisteredProject)) : Prop where
  distinct : (Json.names entries).Nodup
  entered : ∀ entry ∈ entries, ∃ r ∈ requests, r.Enters e entry

theorem step_accounted {requests : List Request} {r : Request} (member : r ∈ requests)
    (step : Step (e.leeway (r.source e) (r.directory e) names) runner w w')
    (accounted : Accounted e requests w.registry.entries) : Accounted e requests w'.registry.entries := by
  cases step with
  | hear n => rwa [hear_registry]
  | grow _ _ => exact accounted
  | write _ _ => exact accounted
  | take _ _ => exact accounted
  | call _ _ _ => exact accounted
  | evict =>
    unfold Registry.remove
    split
    · refine ⟨accounted.distinct.sublist (List.filter_sublist.map _), fun entry kept => ?_⟩
      exact accounted.entered entry (List.mem_of_mem_filter kept)
    · exact accounted
  | enrol =>
    have put : (registered w (r.projectFile e)).entries = Json.setEntry _ _ w.registry.entries := putIn_eq
    change Accounted e requests (registered w (r.projectFile e)).entries
    rw [put]
    refine ⟨Json.setEntry_nodup accounted.distinct, fun entry listed => ?_⟩
    rcases Json.setEntry_mem listed with rfl | old
    · exact ⟨r, member, w.now, rfl⟩
    · exact accounted.entered entry old
  | save _ _ => exact accounted

theorem run_accounted {requests : List Request} {r : Request} {result : Except Failure Outcome} (member : r ∈ requests)
    (ran : (e.processFileBy parse r.file r.asked).run runner w = (result, w'))
    (accounted : Accounted e requests w.registry.entries) : Accounted e requests w'.registry.entries := by
  have walks : Walks (e.leeway (r.source e) (r.directory e) (e.possibleNames (r.source e))) runner w (fun _ => True)
      (e.processFileBy parse r.file r.asked) := processFileBy_walks rfl rfl fun _ _ => lists_possible
  have steps : Steps (e.leeway (r.source e) (r.directory e) (e.possibleNames (r.source e))) runner w w' := by
    cases result with
    | ok o => exact (walks.well ran).1
    | error f => exact walks.failed ran
  exact steps.keeps (fun kept step => step_accounted member step kept) accounted

-- The induction is on the runs.
theorem History.accounted {requests : List Request} (history : History e requests w) :
    Accounted e requests w.registry.entries := by
  induction history with
  | begun empty =>
    rw [empty]
    exact ⟨.nil, nofun⟩
  | @run past _ _ _ r _ _ _ _ handed ran ih =>
    refine run_accounted List.mem_cons_self ran ?_
    rw [handed]
    exact ⟨ih.distinct, fun entry member => (ih.entered entry member).imp fun _ found =>
      ⟨List.mem_cons_of_mem _ found.1, found.2⟩⟩

/-! ### After a commit -/

-- From where a project is recorded on it stays so.
abbrev Recording (runner : Runner σ) (file : Path) (w : World σ) {α : Type} (a : Action σ α) : Prop :=
  Leads runner w (fun _ w' => Records file w') (fun _ _ => True) a

theorem callGit_recording {call : Call} (records : Records file w) : Recording runner file w (Action.callGit call) :=
  Leads.callGit (fun _ _ => records) fun _ => trivial

theorem command_recording {r : Repository} {arguments : List String} (records : Records file w) :
    Recording runner file w (r.command arguments) := by
  unfold Repository.command
  exact (callGit_recording records).bind fun _ _ recorded => .value recorded

theorem head_recording {r : Repository} (records : Records file w) : Recording runner file w r.head := by
  unfold Repository.head
  refine Leads.bind (callGit_recording records) fun _ _ recorded => ?_
  exact Leads.bind (callGit_recording recorded) fun _ _ recorded => .value recorded

theorem commitStaged_recording {r : Repository} {identity : Identity} {message : String} (records : Records file w) :
    Recording runner file w (r.commitStaged identity message) := by
  unfold Repository.commitStaged Repository.commit
  have listing : Recording runner file w r.staged := by
    unfold Repository.staged
    exact Leads.bind (callGit_recording records) fun _ _ recorded => .value recorded
  refine listing.bind fun files _ recorded => ?_
  split
  · exact (head_recording recorded).bind fun _ _ recorded => .noted (.value recorded.hear)
  · refine Leads.bind (Leads.bind (callGit_recording recorded) fun _ _ recorded => head_recording recorded) ?_
    exact fun _ _ recorded => .noted (.value recorded.hear)

theorem writeReadme_recording {r : Repository} {content : String} (records : Records file w) :
    Recording runner file w (Scaffold.writeReadme r directory content) := by
  have staging {middle : World σ} (recorded : Records file middle) :
      Recording runner file middle (r.stage (directory.join Scaffold.readmeName)) := by
    unfold Repository.stage
    split
    · exact command_recording recorded
    · exact .failure trivial
  have writing : Recording runner file w (Action.onDisk
      (DiskAction.write (directory.join Scaffold.readmeName) content.toUTF8)) :=
    .onDisk (fun _ _ _ => records) fun _ _ _ => trivial
  unfold Scaffold.writeReadme Scaffold.writeStaged
  exact (writing.bind fun _ _ recorded => staging recorded).bind fun _ _ recorded => .value recorded

theorem find?_congr {r s : Registry} {name : Text} (same : r.entries = s.entries) : r.find? name = s.find? name := by
  unfold find?
  rw [same]

-- No project of an evicted name is left.
theorem evict_gone {name : String} (ran : (evict name).run runner w = (.ok (), w')) :
    w'.registry.find? (Text.ofString name) = none := by
  unfold evict at ran
  obtain ⟨found, _, sought, ran⟩ := bind_parts ran
  cases sought
  cases there : (w.registry.find? (Text.ofString name)).isSome with
  | false =>
    rw [there, if_neg Bool.false_ne_true] at ran
    obtain ⟨_, rfl⟩ := pure_parts ran
    rwa [Option.isSome_eq_false_iff, Option.isNone_iff_eq_none] at there
  | true =>
    rw [there, if_pos rfl] at ran
    obtain ⟨_, _, released, ran⟩ := bind_parts ran
    obtain ⟨_, rfl⟩ := pure_parts ran
    unfold release at released
    rw [bind_ok run_get] at released
    dsimp only at released
    have removed : (w.registry.remove (Text.ofString name)).1 = true := by
      unfold Registry.remove
      rw [if_pos there]
    rw [removed, if_pos rfl] at released
    have released := note_parts released
    obtain ⟨_, _, kept, ended⟩ := bind_parts released
    obtain ⟨_, rfl⟩ := pure_parts ended
    rw [find?_congr (keep_entries kept).1, find?_remove, if_pos rfl]

-- A name that no project of the source is entered under stays free.
theorem step_absent (other : (directory.join (e.projectName source)).stem ≠ source.stem)
    (step : Step (e.leeway source directory names) runner w w')
    (absent : w.registry.find? (Text.ofString source.stem) = none) :
    w'.registry.find? (Text.ofString source.stem) = none := by
  cases step with
  | hear n => rwa [hear_registry]
  | grow _ _ => exact absent
  | write _ _ => exact absent
  | take _ _ => exact absent
  | call _ _ _ => exact absent
  | evict =>
    change (w.registry.remove (Text.ofString source.stem)).2.find? _ = none
    rw [find?_remove, if_pos rfl]
  | enrol =>
    change (registered w (directory.join (e.projectName source))).find? _ = none
    unfold registered
    rw [find?_put, if_neg, absent]
    intro same
    refine other (Option.some.inj ?_)
    rw [← Text.toString_ofString, same, Text.toString_ofString]
  | save _ _ => exact absent

-- A project that is committed is recorded; the base name of its source stands for it or for none.
theorem expandComment_enters {output : Path} {u : Source.Unit} {d : Source.Node}
    (directory_is : directory = output.join source.stem)
    (ran : (e.expandComment source output u d).run runner w = (.ok (.committed c), w')) :
    Records (directory.join (e.projectName source)) w' ∧
      ((directory.join (e.projectName source)).stem ≠ source.stem →
        w'.registry.find? (Text.ofString source.stem) = none) := by
  obtain ⟨xml, _, evicted, _, _, gone, built⟩ := expandComment_built ran
  rw [← directory_is] at built
  constructor
  · obtain ⟨r, ready, projectFile, filed, kept, split, prepared, wrote, _, delivered⟩ := build_parts built
    obtain ⟨_, rfl⟩ := (Scaffold.prepare_walks (l := e.leeway source directory []) rfl).well prepared
    have named : projectFile = directory.join (e.projectName source) :=
      (writeProjectFile_fills (l := e.leeway source directory []) wrote).1
    rw [named] at delivered
    obtain ⟨_, _, added, _, completed, _, enrolled, readme, committed⟩ := deliver_parts delivered
    have recorded := (writeReadme_recording (register_records enrolled)).well readme
    exact (commitStaged_recording recorded).well committed
  · intro other
    have steps : Steps (e.leeway source directory (e.possibleNames source)) runner evicted w' :=
      ((build_walks lists_possible).well built).1
    exact steps.keeps (fun absent step => step_absent other step absent) (evict_gone gone)

theorem run_enters {r : Request}
    (ran : (e.processFileBy parse r.file r.asked).run runner w = (.ok (.committed c), w')) :
    w'.registry.find? (Text.ofString (r.projectFile e).stem) = some (r.project e w'.now) ∧
    w'.registry.find? (Text.ofString (r.source e).stem)
      = if (r.projectFile e).stem = (r.source e).stem then some (r.project e w'.now) else none := by
  obtain ⟨text, _, processed⟩ := processFileBy_parts ran rfl
  obtain ⟨output, _, d, _, begun, expanded, placed, _, _, one, ended⟩ := processUnit_parts processed rfl
  have output_is : output = e.outputOf r.file r.asked := (outputFor_parts placed).1
  have directory_is : r.directory e = output.join (r.source e).stem := by
    rw [output_is]
    rfl
  obtain ⟨recorded, absent⟩ := expandComment_enters directory_is one
  have found : Records (r.projectFile e) w' := by
    rw [ended]
    exact recorded.hear
  refine ⟨found, ?_⟩
  by_cases same : (r.projectFile e).stem = (r.source e).stem
  · rw [if_pos same, ← same]
    exact found
  · rw [if_neg same, ended, hear_registry]
    exact absent same

/-! ### Many runs -/

-- The name under which a project is entered is chosen by the base name of its source alone.
theorem projectFile_stem {r : Request} {rest : String} (extension : e.configuration.project.extension = "." ++ rest)
    (plain : Path.Plain (r.source e).name) :
    (r.projectFile e).stem = (Path.ofString ((r.source e).stem ++ "." ++ rest)).stem ∧
      (r.source e).stem ≠ "" ∧ '/' ∉ (r.source e).stem.toList := by
  have slash : '/' ∉ (r.source e).stem.toList := Path.stem_slash plain.2.2
  have some : (r.source e).stem ≠ "" := Path.stem_some plain.1
  refine ⟨?_, some, slash⟩
  unfold Request.projectFile projectName
  rw [extension, ← String.append_assoc]
  exact Path.stem_join some slash

-- Of all runs on one registry that was empty at first: every entry is that of the project of some source under the
-- name of the project file, and entries of sources with one base name are one entry. After a run that commits its
-- project is entered; the base name of the source stands for it if that is the name of the project file, and else
-- for none. These names agree where one dot parts the configured suffix from the base name.
theorem registry_names_exact {d : Disk} {here p : Path} {past : List Request} {r : Request}
    {result : Except Failure Outcome} (loaded : Configuration.load d here p = .ok e.configuration)
    (history : History e past w) (handed : middle.registry = w.registry)
    (ran : (e.processFileBy parse r.file r.asked).run runner middle = (result, w')) :
    Accounted e (r :: past) w'.registry.entries ∧
    (∀ (s t : Request) x y, Path.Plain (s.source e).name → Path.Plain (t.source e).name →
      x ∈ w'.registry.entries → y ∈ w'.registry.entries → s.Enters e x → t.Enters e y →
      (s.source e).stem = (t.source e).stem → x = y) ∧
    (∀ c, result = .ok (.committed c) →
      w'.registry.find? (Text.ofString (r.projectFile e).stem) = some (r.project e w'.now) ∧
      w'.registry.find? (Text.ofString (r.source e).stem)
        = if (r.projectFile e).stem = (r.source e).stem then some (r.project e w'.now) else none) ∧
    ∃ rest, e.configuration.project.extension = "." ++ rest ∧
      ('/' ∉ rest.toList → ∀ s : Request, Path.Plain (s.source e).name →
        ((s.projectFile e).stem = (s.source e).stem ↔ rest ≠ "" ∧ '.' ∉ rest.toList)) := by
  obtain ⟨rest, extension⟩ := Configuration.load_extension loaded
  have accounted := (History.run history handed ran).accounted
  refine ⟨accounted, fun s t x y plain plain' listed listed' entered entered' same => ?_, fun c ended => ?_,
    rest, extension, fun single s plain => ?_⟩
  · obtain ⟨now, rfl⟩ := entered
    obtain ⟨now', rfl⟩ := entered'
    have stems : (s.projectFile e).stem = (t.projectFile e).stem := by
      rw [(projectFile_stem extension plain).1, (projectFile_stem extension plain').1, same]
    have found := (find?_exact accounted.distinct).mpr listed
    have found' := (find?_exact accounted.distinct).mpr listed'
    rw [stems] at found
    rw [stems, Option.some.inj (found.symm.trans found')]
  · subst ended
    exact run_enters ran
  · obtain ⟨_, some, slash⟩ := projectFile_stem extension plain
    unfold Request.projectFile projectName
    rw [extension, ← String.append_assoc]
    exact Path.stem_join_exact some slash single

/-! ### At the bench -/

def twoSuffixes : String := "project:\n  extension: .g.csproj\n"

-- The project file has two suffixes.
def suffixedAtBench : Expansion :=
  { atBench with
    configuration := { atBench.configuration with
      project := { atBench.configuration.project with extension := ".g.csproj" } } }

def toolRequest : Request := ⟨⟨.here, ["Tool.cs"]⟩, none⟩

-- The project is entered as Tool.g, and nobody finds it under the name of its source.
theorem registry_names_exact_suffixed : ∃ w',
    Configuration.load ⟨[(["work"], .directory), (["work", ".adhoc.yml"], .file twoSuffixes.toUTF8)]⟩
      ⟨.root, ["work"]⟩ ⟨.here, []⟩ = .ok suffixedAtBench.configuration ∧
    suffixedAtBench.toolRun.run Memory.runner (benchWith toolText [])
      = (.ok (.committed ⟨"2", "Created AdHoc Project"⟩), w') ∧
    w'.registry.find? (Text.ofString "Tool.g") = some (toolRequest.project suffixedAtBench w'.now) ∧
    w'.registry.find? (Text.ofString "Tool") = none := by
  have loaded : Configuration.load
      ⟨[(["work"], .directory), (["work", ".adhoc.yml"], .file twoSuffixes.toUTF8)]⟩
      ⟨.root, ["work"]⟩ ⟨.here, []⟩ = .ok suffixedAtBench.configuration := by decide +kernel
  have ended : (suffixedAtBench.toolRun.run Memory.runner (benchWith toolText [])).1
      = .ok (.committed ⟨"2", "Created AdHoc Project"⟩) := by decide +kernel
  have ran := ok_of_result ended
  have history : History suffixedAtBench [] (benchWith toolText []) := .begun rfl
  obtain ⟨_, _, found, _⟩ := registry_names_exact (r := toolRequest) loaded history rfl ran
  have names : (toolRequest.projectFile suffixedAtBench).stem = "Tool.g" ∧
      (toolRequest.source suffixedAtBench).stem = "Tool" := by decide
  obtain ⟨entered, looked⟩ := found _ rfl
  rw [names.1] at entered looked
  rw [names.2, if_neg (by decide)] at looked
  exact ⟨_, loaded, ran, entered, looked⟩

end Expansion
end InlineProject
