import InlineProject.Proofs.TouchedFiles
import InlineProject.Scan
import Mathlib.Data.List.Basic
/-!
What a scan finds, and in which order. A file is found where the scan gets through all directories above it, and
the order of the files is settled by their names alone.
-/

namespace InlineProject

open InlineProject.Git

variable {d d' : Disk} {place : Place} {name : String} {item : Item}

-- A directory is a repository.
def Disk.Marked (d : Disk) (home : Place) : Prop := (d.item? (metadataPlace home)).isSome = true

/-! ### Names in a directory -/

namespace Disk

-- No place is listed twice.
def Distinct (d : Disk) : Prop := (d.items.map Prod.fst).Nodup

theorem lookup_of_mem {items : List (Place × Item)} (distinct : (items.map Prod.fst).Nodup)
    (listed : (place, item) ∈ items) : items.lookup place = some item := by
  obtain ⟨before, behind, rfl⟩ := List.append_of_mem listed
  refine List.lookup_eq_some_iff.mpr ⟨before, behind, rfl, fun other earlier => ?_⟩
  rw [List.map_append, List.map_cons] at distinct
  have apart := (List.nodup_append.mp distinct).2.2 other.1 (List.mem_map_of_mem earlier) place List.mem_cons_self
  simpa using Ne.symm apart

theorem mem_of_lookup {items : List (Place × Item)} (found : items.lookup place = some item) :
    (place, item) ∈ items := by
  obtain ⟨before, behind, rfl, _⟩ := List.lookup_eq_some_iff.mp found
  exact List.mem_append_right _ List.mem_cons_self

theorem mem_items (distinct : d.Distinct) (some : place ≠ []) :
    (place, item) ∈ d.items ↔ d.item? place = .some item := by
  unfold item?
  rw [if_neg some]
  exact ⟨lookup_of_mem distinct, mem_of_lookup⟩

-- The greatest length so far grows along the entries.
theorem le_foldl {longest : Nat → Place × Item → Nat} (grows : ∀ high entry, longest high entry = max high entry.1.length)
    (items : List (Place × Item)) (high : Nat) :
    high ≤ items.foldl longest high ∧ ∀ entry ∈ items, entry.1.length ≤ items.foldl longest high := by
  induction items generalizing high with
  | nil => exact ⟨Nat.le_refl _, nofun⟩
  | cons entry items ih =>
    obtain ⟨least, all⟩ := ih (longest high entry)
    have most : max high entry.1.length ≤ items.foldl longest (longest high entry) := by
      rwa [← grows high entry]
    rw [List.foldl_cons, List.forall_mem_cons]
    exact ⟨Nat.le_trans (Nat.le_max_left _ _) most, Nat.le_trans (Nat.le_max_right _ _) most, all⟩

theorem length_le_height (there : (d.item? place).isSome = true) : place.length ≤ d.height := by
  cases place with
  | nil => exact Nat.zero_le _
  | cons name more =>
    obtain ⟨item, found⟩ := Option.isSome_iff_exists.mp there
    unfold item? at found
    rw [if_neg (List.cons_ne_nil _ _)] at found
    exact (le_foldl (fun _ _ => rfl) d.items 0).2 _ (mem_of_lookup found)

theorem isSome_of_file (there : (d.file? place).isSome = true) : (d.item? place).isSome = true := by
  unfold file? at there
  split at there
  · rename_i found
    rw [found]
    rfl
  · cases there

theorem mem_children (distinct : d.Distinct) :
    (name, item) ∈ d.children place ↔ d.item? (place ++ [name]) = some item := by
  have some : place ++ [name] ≠ [] := List.append_ne_nil_of_right_ne_nil _ (List.cons_ne_nil _ _)
  rw [← mem_items distinct some]
  unfold children
  rw [List.mem_filterMap]
  constructor
  · rintro ⟨⟨other, here⟩, listed, found⟩
    dsimp only at found
    split at found
    · rename_i above
      obtain ⟨last, ends, same⟩ := Option.map_eq_some_iff.mp found
      cases same
      rwa [← above, List.dropLast_append_getLast? _ ends]
    · cases found
  · intro listed
    refine ⟨_, listed, ?_⟩
    dsimp only
    rw [if_pos List.dropLast_concat, List.getLast?_concat]
    rfl

theorem children_distinct (distinct : d.Distinct) : (d.children place).Pairwise fun a b => a.1 ≠ b.1 := by
  unfold children
  rw [List.pairwise_filterMap]
  refine (List.pairwise_map.mp distinct).imp ?_
  rintro ⟨other, here⟩ ⟨other', here'⟩ apart a found b found' same
  dsimp only at apart found found'
  split at found
  · split at found'
    · rename_i above above'
      obtain ⟨last, ends, rfl⟩ := Option.map_eq_some_iff.mp found
      obtain ⟨last', ends', rfl⟩ := Option.map_eq_some_iff.mp found'
      apply apart
      rw [← List.dropLast_append_getLast? _ ends, ← List.dropLast_append_getLast? _ ends', above, above']
      exact congrArg (fun n => place ++ [n]) same
    · cases found'
  · cases found

end Disk

namespace Scan

theorem sorted_strict {names : List String} (distinct : names.Nodup) : (sorted names).Pairwise (· < ·) := by
  have ordered : (sorted names).Pairwise fun a b => decide (a ≤ b) = true :=
    List.pairwise_mergeSort (fun _ _ _ first second => by simp at *; exact String.le_trans first second)
      (fun a b => by simpa using String.le_total a b) names
  have nodup : (sorted names).Nodup := (List.mergeSort_perm _ _).nodup_iff.mpr distinct
  refine (ordered.and nodup).imp fun ⟨le, apart⟩ => ?_
  exact String.not_le.mp fun back => apart (String.le_antisymm (of_decide_eq_true le) back)

theorem mem_fileNames (distinct : d.Distinct) :
    name ∈ fileNames d place ↔ ∃ content, d.item? (place ++ [name]) = some (.file content) := by
  unfold fileNames sorted
  rw [List.mem_mergeSort, List.mem_filterMap]
  constructor
  · rintro ⟨⟨other, item⟩, listed, found⟩
    cases item with
    | file content =>
      cases found
      exact ⟨content, (Disk.mem_children distinct).mp listed⟩
    | directory => cases found
  · rintro ⟨content, there⟩
    exact ⟨_, (Disk.mem_children distinct).mpr there, rfl⟩

theorem mem_directoryNames (distinct : d.Distinct) :
    name ∈ directoryNames d place ↔ d.item? (place ++ [name]) = some .directory := by
  unfold directoryNames sorted
  rw [List.mem_mergeSort, List.mem_filterMap]
  constructor
  · rintro ⟨⟨other, item⟩, listed, found⟩
    cases item with
    | file content => cases found
    | directory =>
      cases found
      exact (Disk.mem_children distinct).mp listed
  · intro there
    exact ⟨_, (Disk.mem_children distinct).mpr there, rfl⟩

-- Names that are picked from a directory are in strict order.
theorem picked_strict {pick : String × Item → Option String} (same : ∀ entry name, pick entry = some name → name = entry.1)
    (distinct : d.Distinct) : (sorted ((d.children place).filterMap pick)).Pairwise (· < ·) := by
  refine sorted_strict ?_
  unfold List.Nodup
  rw [List.pairwise_filterMap]
  refine (Disk.children_distinct distinct).imp fun apart name picked other picked' => ?_
  rw [same _ _ picked, same _ _ picked']
  exact apart

theorem fileNames_strict (distinct : d.Distinct) : (fileNames d place).Pairwise (· < ·) := by
  refine picked_strict ?_ distinct
  rintro ⟨other, _ | _⟩ name picked <;> cases picked
  rfl

theorem directoryNames_strict (distinct : d.Distinct) : (directoryNames d place).Pairwise (· < ·) := by
  refine picked_strict ?_ distinct
  rintro ⟨other, _ | _⟩ name picked <;> cases picked
  rfl

/-! ### The files that are found -/

variable {s : Scan} {start : Place} {fuel : Nat} {above names more : List String}

-- What a scan sees from a directory on: a file that is wanted, behind directories that it goes into.
def Seen (s : Scan) (d : Disk) (start : Place) : List String → List String → Prop
  | _, [] => False
  | above, [name] =>
      (∃ content, d.item? (start ++ above ++ [name]) = some (.file content)) ∧ s.wants above name = true
  | above, name :: next :: rest =>
      d.item? (start ++ above ++ [name]) = some .directory ∧ s.enters d start above name = true ∧
        s.Seen d start (above ++ [name]) (next :: rest)

theorem Seen.file (seen : s.Seen d start above names) : (d.file? (start ++ above ++ names)).isSome = true := by
  induction names generalizing above with
  | nil => exact seen.elim
  | cons name rest ih =>
    cases rest with
    | nil =>
      obtain ⟨⟨content, there⟩, _⟩ := seen
      unfold Disk.file?
      rw [there]
      rfl
    | cons next rest =>
      have deeper := ih seen.2.2
      rwa [← List.append_assoc, List.append_assoc _ [name]] at deeper

theorem mem_namesFrom (distinct : d.Distinct) :
    names ∈ s.namesFrom d start fuel above ↔
      ∃ more, names = above ++ more ∧ more.length ≤ fuel ∧ s.Seen d start above more := by
  induction fuel generalizing above names with
  | zero =>
    refine ⟨nofun, fun ⟨more, _, short, seen⟩ => ?_⟩
    rw [List.length_eq_zero_iff.mp (Nat.le_zero.mp short)] at seen
    exact seen.elim
  | succ fuel ih =>
    rw [namesFrom, List.mem_append, List.mem_map, List.mem_flatMap]
    constructor
    · rintro (⟨name, listed, rfl⟩ | ⟨name, listed, found⟩)
      · obtain ⟨inside, wanted⟩ := List.mem_filter.mp listed
        exact ⟨[name], rfl, Nat.succ_le_succ (Nat.zero_le _), (mem_fileNames distinct).mp inside, wanted⟩
      · obtain ⟨inside, entered⟩ := List.mem_filter.mp listed
        obtain ⟨more, rfl, short, seen⟩ := ih.mp found
        refine ⟨name :: more, List.append_assoc _ _ _, Nat.succ_le_succ short, ?_⟩
        cases more with
        | nil => exact seen.elim
        | cons next more => exact ⟨(mem_directoryNames distinct).mp inside, entered, seen⟩
    · rintro ⟨more, rfl, short, seen⟩
      cases more with
      | nil => exact seen.elim
      | cons name more =>
        cases more with
        | nil =>
          left
          exact ⟨name, List.mem_filter.mpr ⟨(mem_fileNames distinct).mpr seen.1, seen.2⟩, rfl⟩
        | cons next more =>
          right
          obtain ⟨inside, entered, deeper⟩ := seen
          refine ⟨name, List.mem_filter.mpr ⟨(mem_directoryNames distinct).mpr inside, entered⟩, ?_⟩
          exact ih.mpr ⟨next :: more, (List.append_assoc above [name] _).symm, Nat.le_of_succ_le_succ short, deeper⟩

/-! ### Their order -/

-- The files of a directory come before those of directories in it.
def Earlier : List String → List String → Prop
  | [name], [other] => name < other
  | [_], _ :: _ :: _ => True
  | name :: next :: rest, other :: next' :: rest' => name < other ∨ (name = other ∧ Earlier (next :: rest) (next' :: rest'))
  | _, _ => False

theorem Earlier.asymm {others : List String} (first : Earlier names others) : ¬Earlier others names := by
  induction names generalizing others with
  | nil => exact first.elim
  | cons name rest ih =>
    intro second
    cases rest with
    | nil =>
      cases others with
      | nil => exact first.elim
      | cons other rest' =>
        cases rest' with
        | nil => exact String.lt_asymm first second
        | cons next' rest' => exact second.elim
    | cons next rest =>
      cases others with
      | nil => exact first.elim
      | cons other rest' =>
        cases rest' with
        | nil => exact first.elim
        | cons next' rest' =>
          rcases first with less | ⟨rfl, first⟩
          · rcases second with more | ⟨rfl, _⟩
            · exact String.lt_asymm less more
            · exact String.lt_irrefl _ less
          · rcases second with more | ⟨_, second⟩
            · exact String.lt_irrefl _ more
            · exact ih first second

-- Names behind a common beginning.
def EarlierBehind (above names others : List String) : Prop :=
  ∃ more more', names = above ++ more ∧ others = above ++ more' ∧ Earlier more more'

theorem Earlier.cons {others : List String} (earlier : Earlier names others) :
    Earlier (name :: names) (name :: others) := by
  cases names with
  | nil => exact earlier.elim
  | cons next rest =>
    cases others with
    | nil => cases rest <;> exact earlier.elim
    | cons next' rest' => exact .inr ⟨rfl, earlier⟩

-- What is found in a directory, seen from the one above.
theorem namesFrom_behind (distinct : d.Distinct) (found : names ∈ s.namesFrom d start fuel (above ++ [name])) :
    ∃ next rest, names = above ++ name :: next :: rest := by
  obtain ⟨more, rfl, _, seen⟩ := (mem_namesFrom distinct).mp found
  cases more with
  | nil => exact seen.elim
  | cons next rest => exact ⟨next, rest, List.append_assoc _ _ _⟩

theorem namesFrom_earlier (distinct : d.Distinct) :
    (s.namesFrom d start fuel above).Pairwise (EarlierBehind above) := by
  induction fuel generalizing above with
  | zero => exact .nil
  | succ fuel ih =>
    rw [namesFrom, List.pairwise_append]
    refine ⟨?_, ?_, ?_⟩
    · rw [List.pairwise_map]
      exact ((fileNames_strict distinct).filter _).imp fun less => ⟨_, _, rfl, rfl, less⟩
    · rw [List.pairwise_flatMap]
      refine ⟨fun name _ => ih.imp ?_, ((directoryNames_strict distinct).filter _).imp ?_⟩
      · rintro _ _ ⟨more, more', rfl, rfl, earlier⟩
        exact ⟨name :: more, name :: more', List.append_assoc _ _ _, List.append_assoc _ _ _, earlier.cons⟩
      · intro name other less _ here _ there
        obtain ⟨next, rest, rfl⟩ := namesFrom_behind distinct here
        obtain ⟨next', rest', rfl⟩ := namesFrom_behind distinct there
        exact ⟨_, _, rfl, rfl, .inl less⟩
    · intro _ here _ there
      obtain ⟨name, _, rfl⟩ := List.mem_map.mp here
      obtain ⟨other, _, found⟩ := List.mem_flatMap.mp there
      obtain ⟨next, rest, rfl⟩ := namesFrom_behind distinct found
      exact ⟨[name], _, rfl, rfl, trivial⟩

def below (s : Scan) (d : Disk) (start : Place) : List (List String) := s.namesFrom d start (d.height + 1) []

theorem mem_below (distinct : d.Distinct) : more ∈ s.below d start ↔ s.Seen d start [] more := by
  unfold Scan.below
  rw [mem_namesFrom distinct]
  constructor
  · rintro ⟨_, rfl, _, seen⟩
    exact seen
  · intro seen
    refine ⟨more, rfl, ?_, seen⟩
    have present : (d.item? (start ++ [] ++ more)).isSome = true := Disk.isSome_of_file seen.file
    have high := Disk.length_le_height present
    rw [List.append_nil, List.length_append] at high
    omega

-- Two scans that see the same but for some files give the same files in the same order but for those.
theorem below_filter {keep : List String → Bool} (distinct : d.Distinct) (distinct' : d'.Distinct)
    (same : ∀ more, s.Seen d' start [] more ↔ s.Seen d start [] more ∧ keep more = true) :
    s.below d' start = (s.below d start).filter keep := by
  have ordered {d : Disk} (distinct : d.Distinct) : (s.below d start).Pairwise Earlier := by
    refine (namesFrom_earlier distinct).imp ?_
    rintro _ _ ⟨_, _, rfl, rfl, earlier⟩
    exact earlier
  have nodup {l : List (List String)} (ordered : l.Pairwise Earlier) : l.Nodup := by
    refine ordered.imp ?_
    rintro names _ earlier rfl
    exact earlier.asymm earlier
  have left := ordered distinct'
  have right := (ordered distinct).filter keep
  refine List.Perm.eq_of_pairwise (fun _ _ _ _ first second => absurd second first.asymm) left right ?_
  refine (List.perm_ext_iff_of_nodup (nodup left) (nodup right)).mpr fun more => ?_
  rw [List.mem_filter, mem_below distinct, mem_below distinct', same]

/-! ### What decides whether a file is found -/

-- What a scan asks of names alone.
def Passes (s : Scan) : List String → List String → Prop
  | _, [] => False
  | above, [name] => s.wants above name = true
  | above, name :: next :: rest =>
      excludedNames.contains name = false ∧ s.ignores (above ++ [name]) true = false ∧
        s.Passes (above ++ [name]) (next :: rest)

theorem Passes.wanted (passes : s.Passes above names) :
    ∃ front name, names = front ++ [name] ∧ s.wants (above ++ front) name = true := by
  induction names generalizing above with
  | nil => exact passes.elim
  | cons name rest ih =>
    cases rest with
    | nil => exact ⟨[], name, rfl, by rwa [List.append_nil]⟩
    | cons next rest =>
      obtain ⟨front, last, same, wanted⟩ := ih passes.2.2
      refine ⟨name :: front, last, by rw [same]; rfl, ?_⟩
      rwa [List.append_assoc] at wanted

-- A directory on the way to a file is a repository.
def hides (d : Disk) (place : Place) : List String → Bool
  | name :: next :: rest =>
      (d.item? (place ++ [name, repositoryMark])).isSome || hides d (place ++ [name]) (next :: rest)
  | _ => false

theorem hides_exact : hides d place names = true ↔
    ∃ home, Below place home ∧ Below home (place ++ names) ∧ d.Marked home := by
  induction names generalizing place with
  | nil =>
    refine ⟨nofun, fun ⟨home, ⟨above, other⟩, ⟨inside, _⟩, _⟩ => ?_⟩
    rw [List.append_nil] at inside
    exact absurd (inside.eq_of_length_le above.length_le) other
  | cons name rest ih =>
    have mark : place ++ [name, repositoryMark] = metadataPlace (place ++ [name]) := by
      unfold metadataPlace
      rw [List.append_assoc]
      rfl
    have onwards : place ++ name :: rest = place ++ [name] ++ rest := by rw [List.append_assoc]; rfl
    have next {home : Place} (above : Below place home) (inside : home <+: place ++ name :: rest) :
        home = place ++ [name] ∨ Below (place ++ [name]) home := by
      obtain ⟨⟨way, rfl⟩, other⟩ := above
      cases way with
      | nil => exact absurd (List.append_nil _) other
      | cons first way =>
        have heads := (List.prefix_append_right_inj place).mp inside
        obtain ⟨rfl, _⟩ := List.cons_prefix_cons.mp heads
        by_cases last : way = []
        · exact .inl (by rw [last])
        · right
          rw [show place ++ first :: way = place ++ [first] ++ way by rw [List.append_assoc]; rfl]
          exact below_append last
    cases rest with
    | nil =>
      refine ⟨nofun, fun ⟨home, above, ⟨inside, short⟩, _⟩ => ?_⟩
      rcases next above inside with same | deeper
      · exact absurd same.symm short
      · exact absurd (inside.eq_of_length_le deeper.1.length_le).symm short
    | cons further rest =>
      rw [hides, Bool.or_eq_true, ih, mark]
      constructor
      · rintro (marked | ⟨home, above, inside, marked⟩)
        · refine ⟨_, below_append (List.cons_ne_nil _ _), ?_, marked⟩
          rw [onwards]
          exact below_append (List.cons_ne_nil _ _)
        · refine ⟨home, ⟨(List.prefix_append _ _).trans above.1, ?_⟩, ?_, marked⟩
          · rintro rfl
            exact above.2 (above.1.eq_of_length_le (List.prefix_append _ _).length_le).symm
          · rwa [onwards]
      · rintro ⟨home, above, inside, marked⟩
        rcases next above inside.1 with rfl | deeper
        · exact .inl marked
        · exact .inr ⟨home, deeper, by rwa [onwards] at inside, marked⟩

-- Where entries stand in directories, a file is found if its names pass and nothing hides it.
theorem seen_exact (sound : d.Sound) : s.Seen d start above names ↔
    s.Passes above names ∧ (d.file? (start ++ above ++ names)).isSome = true ∧ hides d (start ++ above) names = false := by
  induction names generalizing above with
  | nil => exact ⟨False.elim, fun passes => passes.1.elim⟩
  | cons name rest ih =>
    cases rest with
    | nil =>
      have file : (∃ content, d.item? (start ++ above ++ [name]) = some (.file content)) ↔
          (d.file? (start ++ above ++ [name])).isSome = true := by
        unfold Disk.file?
        constructor
        · rintro ⟨content, there⟩
          rw [there]
          rfl
        · intro there
          split at there
          · rename_i content found
            exact ⟨content, found⟩
          · cases there
      rw [Seen, Passes, file]
      exact ⟨fun ⟨there, wanted⟩ => ⟨wanted, there, rfl⟩, fun ⟨wanted, there, _⟩ => ⟨there, wanted⟩⟩
    | cons next rest =>
      have onwards : start ++ above ++ name :: next :: rest = start ++ (above ++ [name]) ++ next :: rest := by
        simp only [List.append_assoc, List.cons_append, List.nil_append]
      have enters : s.enters d start above name = true ↔ excludedNames.contains name = false ∧
          s.ignores (above ++ [name]) true = false ∧
          (d.item? (start ++ above ++ [name, repositoryMark])).isSome = false := by
        unfold Scan.enters
        simp only [Bool.and_eq_true, Bool.not_eq_true', Option.isNone_iff_eq_none, Option.isSome_eq_false_iff, and_assoc]
      rw [Seen, Passes, hides, ih, enters, onwards, Bool.or_eq_false_iff, ← List.append_assoc start above]
      constructor
      · rintro ⟨_, ⟨included, heeded, bare⟩, passes, there, free⟩
        exact ⟨⟨included, heeded, passes⟩, there, bare, free⟩
      · rintro ⟨⟨included, heeded, passes⟩, there, bare, free⟩
        refine ⟨?_, ⟨included, heeded, bare⟩, passes, there, free⟩
        exact Disk.directory_above sound (Disk.isSome_of_file there) (List.cons_ne_nil _ _)

end Scan
end InlineProject
