import InlineProject.Proofs.RegistryFile
/-!
When directories can be made. That is said by the names of a path, by the files on its way and by what is at its end:
how many of the directories are there already does not matter.
-/

namespace InlineProject

namespace Disk

variable {d : Disk} {p : Path} {cause : FileCause} {start : Place} {names : List String}

-- Names that a step can be taken by.
def Fit (names : List String) : Prop := ∀ n ∈ names, n = Path.parentName ∨ n.utf8ByteSize ≤ nameLimit

theorem walk_fit (fit : Fit names) (stopped : d.walk start names = .error cause) : cause ≠ .nameTooLong := by
  induction names generalizing start with
  | nil => cases stopped
  | cons name rest ih =>
    have later : Fit rest := fun n member => fit n (List.mem_cons_of_mem _ member)
    unfold walk at stopped
    split at stopped
    · cases stopped
      exact nofun
    · cases stopped
      exact nofun
    · split at stopped
      · exact ih later stopped
      · rename_i other
        rw [if_neg (Nat.not_lt.mpr ((fit name List.mem_cons_self).resolve_left other))] at stopped
        exact ih later stopped

-- Where no file stands in the way something is missing, if a path does not get to its place.
theorem walk_missing (fit : Fit names) (free : ∀ q ∈ Path.trailFrom start names, d.file? q = none)
    (stopped : d.walk start names = .error cause) : cause = .notFound := by
  induction names generalizing start with
  | nil => cases stopped
  | cons name rest ih =>
    have trail : Path.trailFrom start (name :: rest) = start :: Path.trailFrom (Path.stepFrom start name) rest := rfl
    have later : Fit rest := fun n member => fit n (List.mem_cons_of_mem _ member)
    rw [trail, List.forall_mem_cons] at free
    unfold walk at stopped
    unfold Path.stepFrom at free
    split at stopped
    · cases stopped
      rfl
    · rename_i content there
      have none := free.1
      rw [file?_some.mpr there] at none
      cases none
    · split at stopped
      · rename_i up
        rw [if_pos up] at free
        exact ih later free.2 stopped
      · rename_i other
        rw [if_neg (Nat.not_lt.mpr ((fit name List.mem_cons_self).resolve_left other))] at stopped
        rw [if_neg other] at free
        exact ih later free.2 stopped

theorem locate_null (stopped : d.locate p = .error cause) : cause = .nullCharacter ↔ p.hasNull = true := by
  unfold locate at stopped
  cases null : p.hasNull with
  | true =>
    rw [null, if_pos rfl] at stopped
    cases stopped
    exact iff_of_true rfl rfl
  | false =>
    rw [null, if_neg Bool.false_ne_true] at stopped
    exact iff_of_false (walk_cause stopped) Bool.false_ne_true

-- What a path with fitting names leads to is seen, or there is nothing.
theorem look_fit (fit : Fit p.parts) : ∃ item, d.look p = .ok item := by
  unfold look
  cases located : d.locate p with
  | ok place => exact ⟨_, rfl⟩
  | error cause =>
    cases cause with
    | nameTooLong =>
      unfold locate at located
      split at located
      · cases located
      · exact absurd rfl (walk_fit fit located)
    | _ => exact ⟨none, rfl⟩

-- Only a name that is too long keeps it from being seen whether something is there.
theorem look_error {e : FileError} (blind : d.look p = .error e) : e.cause = .nameTooLong ∧ p.hasNull = false := by
  unfold look at blind
  cases located : d.locate p with
  | ok place =>
    rw [located] at blind
    cases blind
  | error cause =>
    have null := locate_null located
    rw [located] at blind
    cases cause <;> cases blind
    exact ⟨rfl, Bool.eq_false_iff.mpr fun has => by cases null.mpr has⟩

-- A path that gets to its place gets to the directory that the place is in.
theorem parent_located (sound : d.Sound) (located : d.locate p = .ok p.place) (absent : d.item? p.place = none) :
    d.item? p.place.dropLast = some .directory := by
  obtain ⟨_, _, left, _⟩ := locate_exact.mp located
  have inside := inside_of_absent absent
  cases parts : p.parts using List.reverseRecOn with
  | nil =>
    refine absurd ?_ inside
    unfold Path.place
    rw [parts]
    rfl
  | append_singleton front name =>
    have last : d.item? (Path.endFrom [] front) = some .directory := by
      refine left _ ?_
      unfold Path.trail
      rw [parts]
      exact Path.mem_trailFrom.mpr ⟨front, name, [], rfl, rfl⟩
    have ends : p.place = Path.stepFrom (Path.endFrom [] front) name := by
      unfold Path.place
      rw [parts, Path.endFrom_append]
      rfl
    unfold Path.stepFrom at ends
    split at ends
    · rw [ends, sound _ (by rw [last]; rfl)] at absent
      cases absent
    · rw [ends, List.dropLast_concat]
      exact last

end Disk

namespace DiskAction

open Disk

variable {d d' : Disk} {p : Path} {place : Place} {cause : FileCause} {mayExist : Bool} {anchor : Anchor}
  {names above : List String} {name : String} {e : FileError}

/-! ### One directory -/

theorem makeOne_stopped (stopped : d.locate p = .error cause) :
    (makeOne mayExist p).run.run d = (.error ⟨cause, p.toString⟩, d) := by
  have refused : (makeDirectory p).run.run d = (.error ⟨cause, p.toString⟩, d) := by
    unfold makeDirectory
    rw [run_bind, run_locate, stopped]
  unfold makeOne
  rw [run_tryCatch, refused]
  dsimp only
  split
  · rw [run_bind, run_isDirectory]
    unfold look
    rw [stopped]
    cases cause <;> rfl
  · rfl

-- One call makes a directory, finds one, or fails and leaves everything as it is.
theorem makeOne_cause (sound : d.Sound) (failed : (makeOne mayExist p).run.run d = (.error e, d')) :
    d' = d ∧ (e.cause = .nullCharacter ↔ p.hasNull = true) := by
  cases located : d.locate p with
  | error cause =>
    rw [makeOne_stopped located] at failed
    cases failed
    exact ⟨rfl, locate_null located⟩
  | ok place =>
    obtain ⟨clean, rfl, _⟩ := locate_exact.mp located
    cases there : d.item? p.place with
    | none =>
      rw [makeOne_absent located there (parent_located sound located there)] at failed
      cases failed
    | some item =>
      rw [makeOne_there located there] at failed
      split at failed <;> cases failed
      exact ⟨rfl, iff_of_false nofun (by rw [clean]; exact Bool.false_ne_true)⟩

theorem makeOne_stands (sound : d.Sound) (ran : (makeOne mayExist p).run.run d = (.ok (), d')) :
    d'.locate p = .ok p.place ∧ d'.item? p.place = some .directory := by
  cases located : d.locate p with
  | error cause =>
    rw [makeOne_stopped located] at ran
    cases ran
  | ok place =>
    obtain rfl := locate_place located
    cases there : d.item? p.place with
    | none =>
      have parent := parent_located sound located there
      rw [makeOne_absent located there parent] at ran
      cases ran
      have made : Made d p (d.put p.place .directory) := ⟨located, there, parent, rfl⟩
      exact made.located
    | some item =>
      rw [makeOne_there located there] at ran
      split at ran
      · rename_i found
        cases ran
        exact ⟨located, there.trans (congrArg some found.2)⟩
      · cases ran

/-! ### Those above it -/

-- Nothing in the names of a path or on its way keeps a directory from being made.
structure Passable (d : Disk) (p : Path) : Prop where
  clean : p.hasNull = false
  fit : Fit p.parts
  free : ∀ q ∈ p.trail, d.file? q = none

theorem Passable.missing (passable : Passable d p) (stopped : d.locate p = .error cause) : cause = .notFound := by
  unfold Disk.locate at stopped
  rw [passable.clean, if_neg Bool.false_ne_true] at stopped
  exact walk_missing passable.fit passable.free stopped

theorem Passable.grown {sort : Place → Prop} (passable : Passable d p) (grown : Grown sort d d') : Passable d' p :=
  ⟨passable.clean, passable.fit, fun q on => grown.file?.trans (passable.free q on)⟩

theorem passable_of_located (located : d.locate p = .ok p.place) : Passable d p := by
  obtain ⟨clean, _, left, fit⟩ := locate_exact.mp located
  refine ⟨clean, fit, fun q on => ?_⟩
  unfold file?
  rw [left q on]

theorem trail_concat {p : Path} {front : List String} (parts : p.parts = front ++ [name]) :
    p.trail = Path.trailFrom [] front ++ [Path.endFrom [] front] := by
  unfold Path.trail
  rw [parts, Path.trailFrom_append]
  rfl

-- The way to a directory is also passable to the one above it, which is no file.
theorem Passable.upward (passable : Passable d ⟨anchor, (name :: above).reverse⟩) :
    Passable d ⟨anchor, above.reverse⟩ ∧ d.file? (Path.place ⟨anchor, above.reverse⟩) = none := by
  obtain ⟨clean, fit, free⟩ := passable
  have parts : (⟨anchor, (name :: above).reverse⟩ : Path).parts = above.reverse ++ [name] := List.reverse_cons
  rw [trail_concat parts] at free
  refine ⟨⟨?_, fun n member => fit n ?_, fun q on => free q (List.mem_append_left _ on)⟩,
    free _ (List.mem_append_right _ List.mem_cons_self)⟩
  · rw [List.reverse_cons] at clean
    exact (Path.hasNull_append.mp clean).1
  · rw [parts]
    exact List.mem_append_left _ member

theorem makeFrom_stands (sound : d.Sound) (ran : (makeFrom anchor mayExist names).run.run d = (.ok (), d')) :
    d'.locate ⟨anchor, names.reverse⟩ = .ok (Path.place ⟨anchor, names.reverse⟩) ∧
      d'.item? (Path.place ⟨anchor, names.reverse⟩) = some .directory := by
  cases names with
  | nil => exact makeOne_stands sound ran
  | cons name above =>
    rcases makeFrom_cases ran with tried | ⟨_, _, _, _, _, upward, ⟨_, _, failed⟩ | last⟩
    · exact makeOne_stands sound tried
    · exact absurd rfl failed
    · exact makeOne_stands ((makeFrom_grown upward).sound sound) last

-- Where no file stands one call is enough to have a directory.
theorem makeOne_passes (sound : d.Sound) (located : d.locate p = .ok p.place) (free : d.file? p.place = none) :
    ∃ d', (makeOne true p).run.run d = (.ok (), d') := by
  cases there : d.item? p.place with
  | none => exact ⟨_, makeOne_absent located there (parent_located sound located there)⟩
  | some item =>
    cases item with
    | directory => exact ⟨_, (makeOne_there located there).trans (if_pos ⟨rfl, rfl⟩)⟩
    | file content =>
      rw [file?_some.mpr there] at free
      cases free

-- After the directory above was made the path gets to its place.
theorem located_upward (passable : Passable d ⟨anchor, (name :: above).reverse⟩)
    (located : d.locate ⟨anchor, above.reverse⟩ = .ok (Path.place ⟨anchor, above.reverse⟩))
    (there : d.item? (Path.place ⟨anchor, above.reverse⟩) = some .directory) :
    d.locate ⟨anchor, (name :: above).reverse⟩ = .ok (Path.place ⟨anchor, (name :: above).reverse⟩) := by
  refine locate_exact.mpr ⟨passable.clean, rfl, fun q on => ?_, passable.fit⟩
  have parts : (⟨anchor, (name :: above).reverse⟩ : Path).parts = above.reverse ++ [name] := List.reverse_cons
  rw [trail_concat parts] at on
  rcases List.mem_append.mp on with before | last
  · exact (locate_exact.mp located).2.2.1 q before
  · rw [List.mem_singleton.mp last]
    exact there

-- Where the way is passable the directories come to stand on it. The induction is on the names, from the innermost
-- one outwards.
theorem makeFrom_passes (sound : d.Sound) (passable : Passable d ⟨anchor, names.reverse⟩)
    (free : d.file? (Path.place ⟨anchor, names.reverse⟩) = none) :
    ∃ d', (makeFrom anchor true names).run.run d = (.ok (), d') := by
  induction names generalizing d with
  | nil => exact makeOne_passes sound (locate_exact.mpr ⟨passable.clean, rfl, nofun, nofun⟩) free
  | cons name above ih =>
    unfold makeFrom
    rw [run_tryCatch]
    cases located : d.locate ⟨anchor, (name :: above).reverse⟩ with
    | ok place =>
      obtain rfl := locate_place located
      obtain ⟨d', made⟩ := makeOne_passes sound located free
      exact ⟨d', by rw [made]⟩
    | error cause =>
      obtain rfl := passable.missing located
      obtain ⟨higher, raised⟩ := ih sound passable.upward.1 passable.upward.2
      have grown := makeFrom_grown raised
      obtain ⟨above_located, there⟩ := makeFrom_stands sound raised
      obtain ⟨d', made⟩ := makeOne_passes (grown.sound sound)
        (located_upward (passable.grown grown) above_located there) (grown.file?.trans free)
      refine ⟨d', ?_⟩
      rw [makeOne_stopped located]
      dsimp only
      rw [if_pos rfl, run_bind, raised]
      exact made

theorem makeFrom_cause (sound : d.Sound) (failed : (makeFrom anchor mayExist names).run.run d = (.error e, d')) :
    e.cause = .nullCharacter ↔ Path.hasNull ⟨anchor, names.reverse⟩ = true := by
  induction names generalizing d mayExist e d' with
  | nil => exact (makeOne_cause sound failed).2
  | cons name above ih =>
    rcases makeFrom_cases failed with tried | ⟨first, tried, missing, _, _, upward, ended⟩
    · exact (makeOne_cause sound tried).2
    · rcases ended with ⟨rfl, rfl, _⟩ | last
      · -- What was missing was asked for, so the names above have no null character either.
        have clean : Path.hasNull ⟨anchor, (name :: above).reverse⟩ = false := by
          refine Bool.eq_false_iff.mpr fun has => ?_
          have null := (makeOne_cause sound tried).2.mpr has
          rw [missing] at null
          cases null
        have front : Path.hasNull ⟨anchor, above.reverse⟩ = false := by
          rw [List.reverse_cons] at clean
          exact (Path.hasNull_append.mp clean).1
        rw [ih sound upward, clean, front]
      · exact (makeOne_cause ((makeFrom_grown upward).sound sound) last).2

/-! ### A directory with those above it -/

theorem onWay_trail {front : List String} {q : Place} (parts : p.parts = front ++ [name]) (on : OnWay front q) :
    q ∈ p.trail := by
  obtain ⟨start, ⟨back, rfl⟩, rfl⟩ := on
  unfold Path.trail
  cases back with
  | nil => exact Path.mem_trailFrom.mpr ⟨start, name, [], by rw [parts, List.append_nil], rfl⟩
  | cons next rest => exact Path.mem_trailFrom.mpr ⟨start, next, rest ++ [name], by simp [parts], rfl⟩

theorem onWay_cases {q : Place} (on : OnWay p.parts q) : q ∈ p.trail ∨ q = p.place := by
  obtain ⟨front, ⟨back, split⟩, rfl⟩ := on
  cases back with
  | nil =>
    rw [List.append_nil] at split
    exact .inr (congrArg (Path.endFrom []) split)
  | cons name rest => exact .inl (Path.mem_trailFrom.mpr ⟨front, name, rest, split.symm, rfl⟩)

theorem makeFrom_absent (sound : d.Sound) (passable : Passable d ⟨anchor, names.reverse⟩)
    (absent : d.item? (Path.place ⟨anchor, names.reverse⟩) = none)
    (off : Path.place ⟨anchor, names.reverse⟩ ∉ Path.trail ⟨anchor, names.reverse⟩) :
    ∃ d', (makeFrom anchor false names).run.run d = (.ok (), d') := by
  cases names with
  | nil => exact absurd rfl (inside_of_absent absent)
  | cons name above =>
    have ended {d : Disk} (sound : d.Sound) (absent : d.item? (Path.place ⟨anchor, (name :: above).reverse⟩) = none)
        (located : d.locate ⟨anchor, (name :: above).reverse⟩ = .ok (Path.place ⟨anchor, (name :: above).reverse⟩)) :
        ∃ d', (makeOne false ⟨anchor, (name :: above).reverse⟩).run.run d = (.ok (), d') :=
      ⟨_, makeOne_absent located absent (parent_located sound located absent)⟩
    unfold makeFrom
    rw [run_tryCatch]
    cases located : d.locate ⟨anchor, (name :: above).reverse⟩ with
    | ok place =>
      obtain rfl := locate_place located
      obtain ⟨d', made⟩ := ended sound absent located
      exact ⟨d', by rw [made]⟩
    | error cause =>
      obtain rfl := passable.missing located
      obtain ⟨higher, raised⟩ := makeFrom_passes sound passable.upward.1 passable.upward.2
      have grown := makeFrom_grown raised
      obtain ⟨above_located, there⟩ := makeFrom_stands sound raised
      have still : higher.item? (Path.place ⟨anchor, (name :: above).reverse⟩) = none := by
        rcases grown.entry (Path.place ⟨anchor, (name :: above).reverse⟩) with same | ⟨_, _, on⟩
        · rw [same, absent]
        · exact absurd (onWay_trail List.reverse_cons on) off
      obtain ⟨d', made⟩ := ended (grown.sound sound) still
        (located_upward (passable.grown grown) above_located there)
      refine ⟨d', ?_⟩
      rw [makeOne_stopped located]
      dsimp only
      rw [if_pos rfl, run_bind, raised]
      exact made

-- A failure has made directories on the way at most.
theorem makeFrom_failed {q : Place} (sound : d.Sound)
    (failed : (makeFrom anchor false names).run.run d = (.error e, d'))
    (off : q ∉ Path.trail ⟨anchor, names.reverse⟩) : d'.item? q = d.item? q := by
  cases names with
  | nil => rw [(makeOne_cause sound failed).1]
  | cons name above =>
    rcases makeFrom_cases failed with tried | ⟨_, _, _, _, higher, upward, ended⟩
    · rw [(makeOne_cause sound tried).1]
    · have grown := makeFrom_grown upward
      have kept : higher.item? q = d.item? q := by
        refine (grown.entry q).resolve_right fun made => ?_
        obtain ⟨_, _, on⟩ := made
        exact off (onWay_trail List.reverse_cons on)
      rcases ended with ⟨_, rfl, _⟩ | last
      · exact kept
      · rw [(makeOne_cause (grown.sound sound) last).1, kept]

-- Whether a directory can be made does not depend on which of those above it are there.
theorem makeDirectories_exact (sound : d.Sound) (off : p.place ∉ p.trail) :
    (∃ d', (makeDirectories false p).run.run d = (.ok (), d')) ↔ Passable d p ∧ d.item? p.place = none := by
  constructor
  · rintro ⟨d', ran⟩
    obtain ⟨middle, grown, located, absent, _⟩ := makeDirectories_made ran
    obtain ⟨clean, fit, free⟩ := passable_of_located located
    refine ⟨⟨clean, fit, fun q on => grown.file?.symm.trans (free q on)⟩, ?_⟩
    rcases grown.entry p.place with same | ⟨none, _⟩
    · rw [← same, absent]
    · exact none
  · rintro ⟨passable, absent⟩
    have whole : (⟨p.anchor, p.parts.reverse.reverse⟩ : Path) = p := by rw [List.reverse_reverse]
    exact makeFrom_absent sound (by rwa [whole]) (by rwa [whole]) (by rwa [whole])

theorem makeDirectories_cause (sound : d.Sound)
    (failed : (makeDirectories false p).run.run d = (.error e, d')) :
    e.cause = .nullCharacter ↔ p.hasNull = true := by
  have caused := makeFrom_cause sound failed
  rwa [List.reverse_reverse] at caused

theorem makeDirectories_failed {q : Place} (sound : d.Sound)
    (failed : (makeDirectories false p).run.run d = (.error e, d')) (off : q ∉ p.trail) :
    d'.item? q = d.item? q := by
  refine makeFrom_failed sound failed ?_
  rwa [List.reverse_reverse]

end DiskAction
end InlineProject
