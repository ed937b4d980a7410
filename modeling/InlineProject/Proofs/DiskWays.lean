import InlineProject.Proofs.DiskRun
import InlineProject.Proofs.PathWays
/-!
Ways over a disk. The disk says whether a path gets to its place. On a disk whose every entry stands in a
directory, entries come and go without that being lost.
-/

namespace InlineProject

namespace Disk

variable {d d' : Disk} {p : Path} {place q : Place}

theorem walk_exact {start : Place} {names : List String} :
    d.walk start names = .ok q ↔
      q = Path.endFrom start names ∧
      (∀ r ∈ Path.trailFrom start names, d.item? r = some .directory) ∧
      (∀ n ∈ names, n = Path.parentName ∨ n.utf8ByteSize ≤ nameLimit) := by
  induction names generalizing start with
  | nil =>
    constructor
    · intro walked
      cases walked
      exact ⟨rfl, nofun, nofun⟩
    · rintro ⟨rfl, _⟩
      rfl
  | cons name rest ih =>
    unfold walk
    cases here : d.item? start with
    | none =>
      refine ⟨nofun, fun ⟨_, left, _⟩ => ?_⟩
      have there := left start List.mem_cons_self
      rw [here] at there
      cases there
    | some item =>
      cases item with
      | file content =>
        refine ⟨nofun, fun ⟨_, left, _⟩ => ?_⟩
        have there := left start List.mem_cons_self
        rw [here] at there
        cases there
      | directory =>
        have next : Path.endFrom start (name :: rest)
            = Path.endFrom (Path.stepFrom start name) rest := rfl
        have trail : Path.trailFrom start (name :: rest)
            = start :: Path.trailFrom (Path.stepFrom start name) rest := rfl
        dsimp only
        rw [next, trail, List.forall_mem_cons, List.forall_mem_cons]
        unfold Path.stepFrom
        by_cases up : name = Path.parentName
        · simp only [up, if_true, ih, here, true_and, true_or]
        · by_cases long : nameLimit < name.utf8ByteSize
          · simp only [up, long, if_true, if_false, false_or, Nat.not_le.mpr long, false_and,
              and_false, reduceCtorEq]
          · simp only [up, long, if_false, false_or, Nat.not_lt.mp long, ih, here, true_and]

-- A path leads to its place, if it gets there.
theorem locate_exact :
    d.locate p = .ok q ↔
      p.hasNull = false ∧ q = p.place ∧ (∀ r ∈ p.trail, d.item? r = some .directory) ∧
      (∀ n ∈ p.parts, n = Path.parentName ∨ n.utf8ByteSize ≤ nameLimit) := by
  unfold locate
  cases p.hasNull with
  | true => simp
  | false => simp [walk_exact, Path.place, Path.trail]

theorem locate_place (located : d.locate p = .ok q) : q = p.place := (locate_exact.mp located).2.1

-- Disks that agree on the way of a path lead it to the same end.
theorem walk_congr {start : Place} {names : List String}
    (same : ∀ r ∈ Path.trailFrom start names, d'.item? r = d.item? r) : d'.walk start names = d.walk start names := by
  induction names generalizing start with
  | nil => rfl
  | cons name rest ih =>
    have trail : Path.trailFrom start (name :: rest) = start :: Path.trailFrom (Path.stepFrom start name) rest := rfl
    rw [trail, List.forall_mem_cons] at same
    have next := ih same.2
    unfold Path.stepFrom at next
    unfold walk
    rw [same.1]
    cases d.item? start with
    | none => rfl
    | some item =>
      cases item with
      | file content => rfl
      | directory =>
        dsimp only
        by_cases up : name = Path.parentName
        · rw [if_pos up] at next
          rw [if_pos up, if_pos up, next]
        · rw [if_neg up] at next
          rw [if_neg up, if_neg up, next]

theorem locate_congr (same : ∀ r ∈ p.trail, d'.item? r = d.item? r) : d'.locate p = d.locate p := by
  unfold locate
  rw [walk_congr same]

theorem look_congr (same : ∀ r ∈ p.trail, d'.item? r = d.item? r) (ends : d'.item? p.place = d.item? p.place) :
    d'.look p = d.look p := by
  unfold look
  rw [locate_congr same]
  cases located : d.locate p with
  | error cause => cases cause <;> rfl
  | ok q =>
    obtain rfl := locate_place located
    dsimp only
    rw [ends]

theorem look_located (located : d.locate p = .ok q) : d.look p = .ok (d.item? q) := by
  unfold look
  rw [located]

theorem look_some {item : Item} (seen : d.look p = .ok (some item)) :
    d.locate p = .ok p.place ∧ d.item? p.place = some item := by
  cases located : d.locate p with
  | error cause =>
    unfold look at seen
    rw [located] at seen
    cases cause <;> cases seen
  | ok q =>
    obtain rfl := locate_place located
    rw [look_located located] at seen
    exact ⟨rfl, Except.ok.inj seen⟩

-- What leads to a name leads to the directory that the name is in.
theorem locate_above {last : String} (located : d.locate ⟨p.anchor, p.parts ++ [last]⟩ = .ok q) :
    d.locate p = .ok p.place ∧ d.item? p.place = some .directory := by
  obtain ⟨clean, _, left, short⟩ := locate_exact.mp located
  have trail : (⟨p.anchor, p.parts ++ [last]⟩ : Path).trail = p.trail ++ [p.place] :=
    Path.trailFrom_append [] p.parts [last]
  rw [trail] at left
  refine ⟨locate_exact.mpr ⟨?_, rfl, fun r on => left r (List.mem_append_left _ on),
    fun n member => short n (List.mem_append_left _ member)⟩, left _ (List.mem_append_right _ List.mem_cons_self)⟩
  exact (Path.hasNull_append.mp clean).1

-- One name on from a directory.
theorem locate_child {name : String} (located : d.locate p = .ok q)
    (there : d.item? q = some .directory) (clean : '\x00' ∉ name.toList)
    (down : name ≠ Path.parentName) (short : name.utf8ByteSize ≤ nameLimit) :
    d.locate ⟨p.anchor, p.parts ++ [name]⟩ = .ok (q ++ [name]) := by
  obtain ⟨pure, ends, left, fit⟩ := locate_exact.mp located
  refine locate_exact.mpr ⟨?_, ?_, fun r on => ?_, fun n member => ?_⟩
  · refine Path.hasNull_append.mpr ⟨pure, ?_⟩
    unfold Path.hasNull
    rw [List.any_cons, List.any_nil, Bool.or_false, List.contains_eq_mem]
    exact decide_eq_false clean
  · change _ = Path.endFrom [] (p.parts ++ [name])
    rw [Path.endFrom_append]
    change _ = Path.stepFrom p.place name
    rw [Path.stepFrom, if_neg down, ends]
  · unfold Path.trail at on
    rw [Path.trailFrom_append] at on
    rcases List.mem_append.mp on with before | last
    · exact left r before
    · rw [List.mem_singleton.mp last]
      change d.item? p.place = _
      rwa [← ends]
  · rcases List.mem_append.mp member with old | new
    · exact fit n old
    · rw [List.mem_singleton.mp new]
      exact .inr short

-- The root is always there.
theorem inside_of_absent (absent : d.item? q = none) : q ≠ [] := by
  rintro rfl
  cases absent

theorem inside_of_file {content : ByteArray} (there : d.item? q = some (.file content)) : q ≠ [] := by
  rintro rfl
  cases there

/-! ### Entries stand in directories -/

def Sound (d : Disk) : Prop :=
  ∀ place, (d.item? place).isSome = true → d.item? place.dropLast = some .directory

theorem sound_of_items
    (stand : ∀ entry ∈ d.items, d.item? entry.1.dropLast = some .directory) : d.Sound := by
  intro place present
  by_cases root : place = []
  · subst root
    rfl
  · simp only [item?, root, if_false] at present
    obtain ⟨item, found⟩ := Option.isSome_iff_exists.mp present
    obtain ⟨before, behind, split, _⟩ := List.lookup_eq_some_iff.mp found
    refine stand (place, item) ?_
    rw [split]
    exact List.mem_append_right _ List.mem_cons_self

-- Above an entry there are only directories.
theorem directory_above (sound : d.Sound) {way : Place} (present : (d.item? (q ++ way)).isSome = true)
    (away : way ≠ []) : d.item? q = some .directory := by
  induction way generalizing q with
  | nil => exact absurd rfl away
  | cons name rest ih =>
    have next : (d.item? (q ++ [name])).isSome = true := by
      by_cases last : rest = []
      · rwa [last] at present
      · rw [ih (by rwa [List.append_assoc]) last]
        rfl
    have above := sound _ next
    rwa [List.dropLast_concat] at above

-- Below what is no directory there is nothing.
theorem absent_below (sound : d.Sound) (other : d.item? q ≠ some .directory) {way : Place} (away : way ≠ []) :
    d.item? (q ++ way) = none := by
  cases present : d.item? (q ++ way) with
  | none => rfl
  | some item =>
    have kept : (d.item? (q ++ way)).isSome = true := by
      rw [present]
      rfl
    exact absurd (directory_above sound kept away) other

theorem put_sound {item : Item} (sound : d.Sound) (inside : q ≠ [])
    (parent : d.item? q.dropLast = some .directory)
    (free : d.item? q ≠ some .directory ∨ item = .directory) : (d.put q item).Sound := by
  intro place present
  rw [item?_put _ _ _ _ inside] at present ⊢
  by_cases same : place = q
  · subst same
    have apart : place.dropLast ≠ place := by
      intro same
      have shorter := congrArg List.length same
      have long := List.length_pos_iff.mpr inside
      simp only [List.length_dropLast] at shorter
      omega
    rwa [if_neg apart]
  · rw [if_neg same] at present
    have above := sound place present
    by_cases onto : place.dropLast = q
    · rw [onto] at above
      rcases free with no | rfl
      · exact absurd above no
      · rw [if_pos onto]
    · rwa [if_neg onto]

/-! ### Where directories stay -/

-- At all places of a sort, what was a directory is one, and nothing else is.
def SameDirectories (sort : Place → Prop) (d d' : Disk) : Prop :=
  ∀ q, sort q → (d'.item? q = some .directory ↔ d.item? q = some .directory)

theorem SameDirectories.trans {sort : Place → Prop} {d'' : Disk}
    (first : SameDirectories sort d d') (second : SameDirectories sort d' d'') :
    SameDirectories sort d d'' := fun q sorted => (second q sorted).trans (first q sorted)

theorem SameDirectories.mono {sort wide : Place → Prop} (same : SameDirectories wide d d')
    (sub : ∀ q, sort q → wide q) : SameDirectories sort d d' := fun q sorted => same q (sub q sorted)

theorem sameDirectories_put {sort : Place → Prop} {content : ByteArray}
    (free : d.item? q ≠ some .directory) : SameDirectories sort d (d.put q (.file content)) := by
  intro place _
  have inside : q ≠ [] := by
    rintro rfl
    exact free rfl
  rw [item?_put _ _ _ _ inside]
  by_cases same : place = q
  · subst same
    rw [if_pos rfl]
    exact ⟨nofun, fun there => absurd there free⟩
  · rw [if_neg same]

theorem locate_mono (stay : ∀ r, d.item? r = some .directory → d'.item? r = some .directory)
    (located : d.locate p = .ok q) : d'.locate p = .ok q := by
  obtain ⟨clean, here, left, short⟩ := locate_exact.mp located
  exact locate_exact.mpr ⟨clean, here, fun r on => stay r (left r on), short⟩

theorem locate_transfer {sort : Place → Prop} (same : SameDirectories sort d d')
    (sorted : ∀ r ∈ p.trail, sort r) (located : d.locate p = .ok q) : d'.locate p = .ok q := by
  obtain ⟨clean, here, left, short⟩ := locate_exact.mp located
  exact locate_exact.mpr ⟨clean, here, fun r on => (same r (sorted r on)).mpr (left r on), short⟩

-- A file that comes where no directory was is on nobody's way.
theorem locate_put {content : ByteArray} {r : Place} (free : d.item? r ≠ some .directory)
    (located : d.locate p = .ok q) : (d.put r (.file content)).locate p = .ok q := by
  have same : SameDirectories (fun _ => True) d (d.put r (.file content)) := sameDirectories_put free
  exact locate_transfer same (fun _ _ => trivial) located

end Disk

namespace DiskAction

open Disk

variable {d d' : Disk} {p : Path} {place : Place}

-- All that decides whether a file can be written lies at places of a sort.
structure Guarded (sort : Place → Prop) (p : Path) : Prop where
  trail : ∀ q ∈ p.trail, sort q
  place : sort p.place
  parent : sort p.place.dropLast

theorem Writable.transfer {sort : Place → Prop} (same : SameDirectories sort d d')
    (guarded : Guarded sort p) (writable : Writable d p place) : Writable d' p place := by
  obtain rfl := locate_place writable.located
  exact ⟨locate_transfer same guarded.trail writable.located,
    fun there => writable.noDirectory ((same _ guarded.place).mp there),
    (same _ guarded.parent).mpr writable.parent⟩

theorem Writable.put_sound {content : ByteArray} (writable : Writable d p place)
    (sound : d.Sound) : (d.put place (.file content)).Sound :=
  Disk.put_sound sound (writable_inside writable) writable.parent (.inl writable.noDirectory)

-- A file is written, or everything stays as it is.
theorem write_cases {content : ByteArray} {r : Except FileError Unit}
    (ran : (write p content).run.run d = (r, d')) :
    (r ≠ .ok () ∧ d' = d) ∨ (r = .ok () ∧ Writable d p p.place ∧ d' = d.put p.place (.file content)) := by
  cases r with
  | ok _ =>
    obtain ⟨place, writable, put⟩ := write_parts ran
    obtain rfl := Disk.locate_place writable.located
    exact .inr ⟨rfl, writable, put⟩
  | error e =>
    refine .inl ⟨nofun, ?_⟩
    rw [run_write] at ran
    split at ran
    · cases ran
      rfl
    · split at ran
      · cases ran
        rfl
      · split at ran <;> cases ran <;> rfl

/-! ### Directories that are made -/

-- Nothing is lost, and what has come are directories at places of a sort.
structure Grown (sort : Place → Prop) (d d' : Disk) : Prop where
  entry : ∀ q, d'.item? q = d.item? q ∨
    (d.item? q = none ∧ d'.item? q = some .directory ∧ sort q)
  sound : d.Sound → d'.Sound

theorem Grown.refl {sort : Place → Prop} : Grown sort d d := ⟨fun _ => .inl rfl, id⟩

theorem Grown.trans {sort : Place → Prop} {d'' : Disk} (first : Grown sort d d')
    (second : Grown sort d' d'') : Grown sort d d'' := by
  refine ⟨fun q => ?_, fun sound => second.sound (first.sound sound)⟩
  rcases second.entry q with same | ⟨absent, made, sorted⟩
  · rw [same]
    exact first.entry q
  · rcases first.entry q with same | ⟨_, made', _⟩
    · exact .inr ⟨same ▸ absent, made, sorted⟩
    · rw [made'] at absent
      cases absent

theorem Grown.mono {sort wide : Place → Prop} (grown : Grown sort d d')
    (sub : ∀ q, sort q → wide q) : Grown wide d d' :=
  ⟨fun q => (grown.entry q).imp id fun ⟨absent, made, sorted⟩ => ⟨absent, made, sub q sorted⟩,
    grown.sound⟩

theorem Grown.directory {sort : Place → Prop} (grown : Grown sort d d') {q : Place}
    (there : d.item? q = some .directory) : d'.item? q = some .directory := by
  rcases grown.entry q with same | ⟨absent, _⟩
  · rwa [same]
  · rw [there] at absent
    cases absent

theorem grown_put {sort : Place → Prop} {q : Place} (sorted : sort q) (absent : d.item? q = none)
    (parent : d.item? q.dropLast = some .directory) : Grown sort d (d.put q .directory) := by
  have inside := inside_of_absent absent
  refine ⟨fun r => ?_, fun sound => put_sound sound inside parent (.inr rfl)⟩
  rw [item?_put _ _ _ _ inside]
  by_cases same : r = q
  · subst same
    rw [if_pos rfl]
    exact .inr ⟨absent, rfl, sorted⟩
  · rw [if_neg same]
    exact .inl rfl

theorem run_find : (find? p).run.run d = (d.look p, d) := by
  unfold find? ofLook
  rw [run_bind, run_get]
  dsimp only
  cases d.look p <;> rfl

theorem run_isDirectory : (isDirectory p).run.run d = match d.look p with
    | .ok item => (.ok (decide (item = some .directory)), d)
    | .error e => (.error e, d) := by
  unfold isDirectory
  rw [run_bind, run_find]
  cases d.look p <;> rfl

theorem run_pathExists : (pathExists p).run.run d = match d.look p with
    | .ok item => (.ok item.isSome, d)
    | .error e => (.error e, d) := by
  unfold pathExists
  rw [run_bind, run_find]
  cases d.look p <;> rfl

-- A directory has been made at the end of the path.
def Made (d : Disk) (p : Path) (d' : Disk) : Prop :=
  d.locate p = .ok p.place ∧ d.item? p.place = none ∧
  d.item? p.place.dropLast = some .directory ∧ d' = d.put p.place .directory

theorem makeDirectory_cases {r : Except FileError Unit}
    (ran : (makeDirectory p).run.run d = (r, d')) :
    (r ≠ .ok () ∧ d' = d) ∨ (r = .ok () ∧ Made d p d') := by
  unfold makeDirectory at ran
  rw [run_bind, run_locate] at ran
  cases located : d.locate p with
  | error cause =>
    rw [located] at ran
    cases ran
    exact .inl ⟨nofun, rfl⟩
  | ok place =>
    obtain rfl := locate_place located
    rw [located] at ran
    dsimp only at ran
    rw [run_bind, run_get] at ran
    dsimp only at ran
    cases absent : d.item? p.place with
    | some item =>
      rw [absent] at ran
      cases ran
      exact .inl ⟨nofun, rfl⟩
    | none =>
      rw [absent] at ran
      dsimp only at ran
      rw [run_bind, run_checkParent] at ran
      cases parent : d.item? p.place.dropLast with
      | none =>
        rw [parent] at ran
        cases ran
        exact .inl ⟨nofun, rfl⟩
      | some item =>
        rw [parent] at ran
        cases item with
        | file content =>
          cases ran
          exact .inl ⟨nofun, rfl⟩
        | directory =>
          cases ran
          exact .inr ⟨rfl, located, absent, parent, rfl⟩

theorem makeOne_cases {mayExist : Bool} {r : Except FileError Unit}
    (ran : (makeOne mayExist p).run.run d = (r, d')) :
    ((r = .ok () → mayExist = true) ∧ d' = d) ∨ (r = .ok () ∧ Made d p d') := by
  unfold makeOne at ran
  rw [run_tryCatch] at ran
  cases tried : (makeDirectory p).run.run d with
  | mk first middle =>
    rw [tried] at ran
    rcases makeDirectory_cases tried with ⟨failed, rfl⟩ | ⟨rfl, made⟩
    · cases first with
      | ok _ => exact absurd rfl failed
      | error e =>
        dsimp only at ran
        split at ran
        · rename_i may
          rw [Bool.and_eq_true, Bool.and_eq_true] at may
          refine .inl ⟨fun _ => may.1.1, ?_⟩
          rw [run_bind, run_isDirectory] at ran
          cases seen : middle.look p with
          | error e =>
            rw [seen] at ran
            cases ran
            rfl
          | ok item =>
            rw [seen] at ran
            dsimp only at ran
            split at ran
            · cases ran
              rfl
            · cases ran
              rfl
        · cases ran
          exact .inl ⟨nofun, rfl⟩
    · cases ran
      exact .inr ⟨rfl, made⟩

theorem Made.grown {sort : Place → Prop} (made : Made d p d') (sorted : sort p.place) :
    Grown sort d d' := by
  obtain ⟨_, absent, parent, rfl⟩ := made
  exact grown_put sorted absent parent

theorem Made.located (made : Made d p d') :
    d'.locate p = .ok p.place ∧ d'.item? p.place = some .directory := by
  have grown : Grown (fun _ => True) d d' := made.grown trivial
  obtain ⟨located, absent, _, rfl⟩ := made
  refine ⟨locate_mono (fun _ there => grown.directory there) located, ?_⟩
  rw [item?_put _ _ _ _ (inside_of_absent absent), if_pos rfl]

-- Where the names lead to that a path starts with.
def OnWay (names : List String) (q : Place) : Prop :=
  ∃ front, front <+: names ∧ q = Path.endFrom [] front

theorem onWay_end {names : List String} : OnWay names (Path.endFrom [] names) :=
  ⟨names, List.prefix_refl names, rfl⟩

theorem OnWay.extend {names more : List String} {q : Place} (on : OnWay names q) :
    OnWay (names ++ more) q := by
  obtain ⟨front, leads, rfl⟩ := on
  exact ⟨front, leads.trans (List.prefix_append _ _), rfl⟩

theorem onWay_down {names : List String} {q : Place} (down : Path.parentName ∉ names) (on : OnWay names q) : q <+: names := by
  obtain ⟨front, leads, rfl⟩ := on
  rwa [Path.endFrom_down fun member => down (leads.subset member)]

theorem makeOne_grown {mayExist : Bool} {r : Except FileError Unit}
    (ran : (makeOne mayExist p).run.run d = (r, d')) : Grown (OnWay p.parts) d d' := by
  rcases makeOne_cases ran with ⟨_, rfl⟩ | ⟨_, made⟩
  · exact .refl
  · exact made.grown onWay_end

-- A directory is made at once, or for want of those above it, which are made before it is tried again.
theorem makeFrom_cases {anchor : Anchor} {mayExist : Bool} {name : String} {above : List String}
    {r : Except FileError Unit} (ran : (makeFrom anchor mayExist (name :: above)).run.run d = (r, d')) :
    (makeOne mayExist ⟨anchor, (name :: above).reverse⟩).run.run d = (r, d') ∨
      ∃ e, (makeOne mayExist ⟨anchor, (name :: above).reverse⟩).run.run d = (.error e, d) ∧ e.cause = .notFound ∧
        ∃ upward higher, (makeFrom anchor true above).run.run d = (upward, higher) ∧
          ((upward = r ∧ higher = d' ∧ r ≠ .ok ()) ∨
            (makeOne mayExist ⟨anchor, (name :: above).reverse⟩).run.run higher = (r, d')) := by
  unfold makeFrom at ran
  rw [run_tryCatch] at ran
  cases tried : (makeOne mayExist ⟨anchor, (name :: above).reverse⟩).run.run d with
  | mk first middle =>
    rw [tried] at ran
    cases first with
    | ok _ => exact .inl ran
    | error e =>
      dsimp only at ran
      split at ran
      · rename_i missing
        obtain rfl : middle = d := by
          rcases makeOne_cases tried with ⟨_, same⟩ | ⟨failed, _⟩
          · exact same
          · cases failed
        rw [run_bind] at ran
        cases raised : (makeFrom anchor true above).run.run middle with
        | mk upward higher =>
          rw [raised] at ran
          cases upward with
          | ok _ => exact .inr ⟨e, rfl, missing, _, higher, rfl, .inr ran⟩
          | error _ =>
            cases ran
            exact .inr ⟨e, rfl, missing, _, _, rfl, .inl ⟨rfl, rfl, nofun⟩⟩
      · exact .inl ran

theorem OnWay.reverse_cons {name : String} {above : List String} {q : Place} (on : OnWay above.reverse q) :
    OnWay (name :: above).reverse q := by
  rw [List.reverse_cons]
  exact on.extend

-- The names are given innermost first, so the directories are made on the way of their reverse.
theorem makeFrom_grown {anchor : Anchor} {mayExist : Bool} {names : List String}
    {r : Except FileError Unit} (ran : (makeFrom anchor mayExist names).run.run d = (r, d')) :
    Grown (OnWay names.reverse) d d' := by
  induction names generalizing mayExist d r d' with
  | nil => exact makeOne_grown ran
  | cons name above ih =>
    rcases makeFrom_cases ran with tried | ⟨_, _, _, _, higher, upward, ended⟩
    · exact makeOne_grown tried
    · have raised : Grown (OnWay (name :: above).reverse) d higher := (ih upward).mono fun _ => OnWay.reverse_cons
      rcases ended with ⟨_, rfl, _⟩ | last
      · exact raised
      · exact raised.trans (makeOne_grown last)

theorem makeFrom_made {anchor : Anchor} {names : List String}
    (ran : (makeFrom anchor false names).run.run d = (.ok (), d')) :
    ∃ middle, Grown (OnWay names.reverse) d middle ∧ Made middle ⟨anchor, names.reverse⟩ d' := by
  have ended {start : Disk} (grown : Grown (OnWay names.reverse) d start)
      (last : (makeOne false ⟨anchor, names.reverse⟩).run.run start = (.ok (), d')) :
      ∃ middle, Grown (OnWay names.reverse) d middle ∧ Made middle ⟨anchor, names.reverse⟩ d' := by
    rcases makeOne_cases last with ⟨may, _⟩ | ⟨_, made⟩
    · cases may rfl
    · exact ⟨start, grown, made⟩
  cases names with
  | nil => exact ended .refl ran
  | cons name above =>
    rcases makeFrom_cases ran with tried | ⟨_, _, _, _, higher, upward, ⟨_, _, failed⟩ | last⟩
    · exact ended .refl tried
    · exact absurd rfl failed
    · exact ended ((makeFrom_grown upward).mono fun _ => OnWay.reverse_cons) last

theorem makeDirectories_made (ran : (makeDirectories false p).run.run d = (.ok (), d')) :
    ∃ middle, Grown (OnWay p.parts) d middle ∧ Made middle p d' := by
  have made := makeFrom_made ran
  rwa [List.reverse_reverse] at made

theorem makeDirectories_grown {mayExist : Bool} {r : Except FileError Unit}
    (ran : (makeDirectories mayExist p).run.run d = (r, d')) : Grown (OnWay p.parts) d d' := by
  have grown := makeFrom_grown ran
  rwa [List.reverse_reverse] at grown

-- What is there already is found if it is a directory.
theorem makeOne_there {mayExist : Bool} {item : Item} (located : d.locate p = .ok place) (there : d.item? place = some item) :
    (makeOne mayExist p).run.run d = if mayExist = true ∧ item = .directory then (.ok (), d)
      else (.error ⟨.alreadyExists, p.toString⟩, d) := by
  have refused : (makeDirectory p).run.run d = (.error ⟨.alreadyExists, p.toString⟩, d) := by
    unfold makeDirectory
    rw [run_bind, run_locate, located]
    dsimp only
    rw [run_bind, run_get]
    dsimp only
    rw [there]
    rfl
  have seen : d.look p = .ok (some item) := by rw [look_located located, there]
  unfold makeOne
  rw [run_tryCatch, refused]
  dsimp only
  cases mayExist with
  | false => rfl
  | true =>
    rw [if_pos (by rfl), run_bind, run_isDirectory, seen]
    cases item <;> rfl

-- Where one call is enough no directory above is asked for.
theorem makeDirectories_of_one {mayExist : Bool} (one : (makeOne mayExist p).run.run d = (.ok (), d')) :
    (makeDirectories mayExist p).run.run d = (.ok (), d') := by
  unfold makeDirectories
  cases names : p.parts.reverse with
  | nil =>
    have whole : (⟨p.anchor, []⟩ : Path) = p := by
      rw [← List.reverse_eq_nil_iff.mp names]
    unfold makeFrom
    rw [whole]
    exact one
  | cons name above =>
    have whole : (⟨p.anchor, (name :: above).reverse⟩ : Path) = p := by
      rw [← names, List.reverse_reverse]
    unfold makeFrom
    rw [run_tryCatch, whole, one]

-- Nothing has to be made where all is there.
theorem makeDirectories_exists (located : d.locate p = .ok place)
    (there : d.item? place = some .directory) :
    (makeDirectories true p).run.run d = (.ok (), d) :=
  makeDirectories_of_one ((makeOne_there located there).trans (if_pos ⟨rfl, rfl⟩))

theorem makeOne_absent {mayExist : Bool} (located : d.locate p = .ok place) (absent : d.item? place = none)
    (parent : d.item? place.dropLast = some .directory) :
    (makeOne mayExist p).run.run d = (.ok (), d.put place .directory) := by
  unfold makeOne makeDirectory
  rw [run_tryCatch, run_bind, run_locate, located]
  dsimp only
  rw [run_bind, run_get]
  dsimp only
  rw [absent]
  dsimp only
  rw [run_bind, run_checkParent, parent]
  rfl

theorem makeDirectories_absent {mayExist : Bool} (located : d.locate p = .ok place) (absent : d.item? place = none)
    (parent : d.item? place.dropLast = some .directory) :
    (makeDirectories mayExist p).run.run d = (.ok (), d.put place .directory) :=
  makeDirectories_of_one (makeOne_absent located absent parent)

end DiskAction
end InlineProject
