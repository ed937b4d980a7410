import Mathlib.Data.List.Infix
import InlineProject.Proofs.WorldFrames
/-!
Stocks of files, as a commit or an index has them, and how a directory is brought to what they say: by
writing them all out, or by taking away what they do not have.
-/

namespace InlineProject

/-! ### Entries by their places -/

theorem lookup_filter {β : Type} (keep : Place → Bool) {entries : List (Place × β)} {q : Place} :
    (entries.filter fun entry => keep entry.1).lookup q
      = if keep q then entries.lookup q else none := by
  induction entries with
  | nil => simp
  | cons entry rest ih =>
    obtain ⟨place, _⟩ := entry
    by_cases same : q = place
    · subst same
      cases kept : keep q <;> simp [kept, ih]
    · have apart : (q == place) = false := beq_eq_false_iff_ne.mpr same
      cases kept : keep place <;> simp [kept, apart, List.lookup_cons, ih]

namespace Disk

variable {d : Disk} {fresh : List (Place × Item)} {keep : Place → Bool} {q : Place}

-- New entries, and those of the old ones that are kept.
def remade (d : Disk) (fresh : List (Place × Item)) (keep : Place → Bool) : Disk :=
  ⟨fresh ++ d.items.filter fun entry => keep entry.1⟩

theorem item?_remade : (d.remade fresh keep).item? q
    = if q = [] then some .directory
      else (fresh.lookup q).or (if keep q then d.item? q else none) := by
  unfold item? remade
  by_cases root : q = []
  · rw [if_pos root, if_pos root]
  · rw [if_neg root, if_neg root, if_neg root, List.lookup_append, lookup_filter]

theorem item?_remade_kept (old : fresh.lookup q = none) (kept : keep q = true) :
    (d.remade fresh keep).item? q = d.item? q := by
  rw [item?_remade, old, if_pos kept, Option.none_or]
  by_cases root : q = []
  · rw [if_pos root, root]
    rfl
  · rw [if_neg root]

end Disk

/-! ### Stocks -/

namespace Git

-- Each at its way inside of a directory, and none where another needs a directory.
structure Stock where
  files : List (Place × ByteArray)
  inside : ∀ f ∈ files, f.1 ≠ [] ∧ f.1.head? ≠ some metadataName
  apart : ∀ f ∈ files, ∀ g ∈ files, f.1 <+: g.1 → f.1 = g.1

namespace Stock

variable {s old : Stock} {home way other q : Place} {d : Disk} {content : ByteArray}

def empty : Stock := ⟨[], nofun, nofun⟩

def tree (s : Stock) : Tree := fun way => s.files.lookup way

theorem mem_of_tree (held : s.tree way = some content) : (way, content) ∈ s.files := by
  obtain ⟨front, back, split, _⟩ := List.lookup_eq_some_iff.mp held
  rw [split]
  exact List.mem_append_right _ List.mem_cons_self

theorem tree_isSome {f : Place × ByteArray} (member : f ∈ s.files) : (s.tree f.1).isSome = true := by
  unfold tree
  cases held : s.files.lookup f.1 with
  | some content => rfl
  | none =>
    have other := List.lookup_eq_none_iff.mp held f member
    rw [bne_self_eq_false] at other
    cases other

-- Whether one of two ways leads on to the other.
def meets (way other : Place) : Bool := way.isPrefixOf other || other.isPrefixOf way

theorem meets_false (apart : meets way other = false) : ¬way <+: other ∧ ¬other <+: way := by
  unfold meets at apart
  rw [Bool.or_eq_false_iff] at apart
  constructor
  · exact fun leads => Bool.false_ne_true (apart.1.symm.trans (List.isPrefixOf_iff_prefix.mpr leads))
  · exact fun leads => Bool.false_ne_true (apart.2.symm.trans (List.isPrefixOf_iff_prefix.mpr leads))

-- With one more file, which takes the place of those that cannot stand beside it.
def add (s : Stock) (way : Place) (content : ByteArray)
    (free : way ≠ [] ∧ way.head? ≠ some metadataName) : Stock where
  files := (way, content) :: s.files.filter fun f => !meets way f.1
  inside := by
    intro f member
    rcases List.mem_cons.mp member with rfl | kept
    · exact free
    · exact s.inside f (List.mem_filter.mp kept).1
  apart := by
    intro f first g second leads
    rcases List.mem_cons.mp first with rfl | kept
    · rcases List.mem_cons.mp second with rfl | kept'
      · rfl
      · exact absurd leads (meets_false ((Bool.not_eq_true' _).mp (List.mem_filter.mp kept').2)).1
    · rcases List.mem_cons.mp second with rfl | kept'
      · exact absurd leads (meets_false ((Bool.not_eq_true' _).mp (List.mem_filter.mp kept).2)).2
      · exact s.apart f (List.mem_filter.mp kept).1 g (List.mem_filter.mp kept').1 leads

-- Where all the others can stand beside it, nothing else changes.
theorem tree_add {free : way ≠ [] ∧ way.head? ≠ some metadataName}
    (beside : ∀ other, (s.tree other).isSome = true → meets way other = true → other = way) :
    (s.add way content free).tree = s.tree.put way content := by
  funext other
  unfold tree Tree.put add
  dsimp only
  by_cases same : other = way
  · rw [if_pos same, same, List.lookup_cons_self]
  · have apart : (other == way) = false := beq_eq_false_iff_ne.mpr same
    rw [if_neg same, List.lookup_cons, apart]
    have kept : (s.files.filter fun f => !meets way f.1).lookup other
        = if !meets way other then s.files.lookup other else none :=
      lookup_filter fun way' => !meets way way'
    refine kept.trans ?_
    cases met : meets way other with
    | false => rfl
    | true =>
      cases held : s.files.lookup other with
      | none => rfl
      | some content =>
        have there : (s.tree other).isSome = true := by
          rw [tree, held]
          rfl
        exact absurd (beside other there met) same

/-! ### Writing a stock out -/

-- The directories that a file needs.
def above (way : Place) : List Place := way.dropLast.inits.filter fun p => !p.isEmpty

theorem mem_above {p : Place} : p ∈ above way ↔ p <+: way.dropLast ∧ p ≠ [] := by
  unfold above
  rw [List.mem_filter, List.mem_inits, Bool.not_eq_true', List.isEmpty_eq_false_iff]

def written (s : Stock) (home : Place) : List (Place × Item) :=
  (s.files.map fun f => (home ++ f.1, .file f.2))
    ++ s.files.flatMap fun f => (above f.1).map fun p => (home ++ p, .directory)

-- What stands in the way of a file goes, and so does a file of the old stock that the new one lacks.
def stays (s old : Stock) (home : Place) (d : Disk) (q : Place) : Bool :=
  !(s.files.any fun f => (home ++ f.1).isPrefixOf q)
    && !(old.files.any fun f => home ++ f.1 = q && d.item? q ≠ some .directory)

def reset (s old : Stock) (home : Place) (d : Disk) : Disk :=
  d.remade (s.written home) (s.stays old home d)

theorem lookup_files : (s.files.map fun f => (home ++ f.1, Item.file f.2)).lookup (home ++ way)
    = (s.tree way).map .file := by
  unfold tree
  induction s.files with
  | nil => rfl
  | cons f rest ih =>
    obtain ⟨other, content⟩ := f
    by_cases same : way = other
    · subst same
      rw [List.map_cons, List.lookup_cons_self, List.lookup_cons_self]
      rfl
    · have apart : (way == other) = false := beq_eq_false_iff_ne.mpr same
      have joined : (home ++ way == home ++ other) = false :=
        beq_eq_false_iff_ne.mpr fun h => same (List.append_cancel_left h)
      rw [List.map_cons, List.lookup_cons, List.lookup_cons, joined, apart]
      exact ih

-- What is written lies inside of the directory: files, and directories above them.
theorem written_cases {item : Item} (wrote : (s.written home).lookup q = some item) :
    ∃ f ∈ s.files, ∃ p, p ≠ [] ∧ p <+: f.1 ∧ q = home ++ p ∧
      (p = f.1 ∨ (p <+: f.1.dropLast ∧ item = .directory)) := by
  obtain ⟨front, back, split, _⟩ := List.lookup_eq_some_iff.mp wrote
  have member : (q, item) ∈ s.written home := by
    rw [split]
    exact List.mem_append_right _ List.mem_cons_self
  rcases List.mem_append.mp member with file | directory
  · obtain ⟨f, listed, same⟩ := List.mem_map.mp file
    cases same
    exact ⟨f, listed, f.1, (s.inside f listed).1, List.prefix_rfl, rfl, .inl rfl⟩
  · obtain ⟨f, listed, inner⟩ := List.mem_flatMap.mp directory
    obtain ⟨p, upper, same⟩ := List.mem_map.mp inner
    cases same
    obtain ⟨leads, some⟩ := mem_above.mp upper
    exact ⟨f, listed, p, some, leads.trans (List.dropLast_prefix f.1), rfl, .inr ⟨leads, rfl⟩⟩

theorem reset_file (inside : home ++ way ≠ []) (held : s.tree way = some content) :
    (s.reset old home d).item? (home ++ way) = some (.file content) := by
  unfold reset written
  rw [Disk.item?_remade, if_neg inside, List.lookup_append, lookup_files, held]
  rfl

-- Of two files neither is above the other, so what is above a file becomes a directory.
theorem reset_above {f : Place × ByteArray} (member : f ∈ s.files) {p : Place} (deep : p ≠ [])
    (leads : p <+: f.1.dropLast) : (s.reset old home d).item? (home ++ p) = some .directory := by
  have inside : home ++ p ≠ [] := fun root => deep (List.append_eq_nil_iff.mp root).2
  unfold reset
  rw [Disk.item?_remade, if_neg inside]
  cases wrote : (s.written home).lookup (home ++ p) with
  | none =>
    have entry : (home ++ p, Item.directory) ∈ s.written home :=
      List.mem_append_right _ (List.mem_flatMap.mpr
        ⟨f, member, List.mem_map.mpr ⟨p, mem_above.mpr ⟨leads, deep⟩, rfl⟩⟩)
    have other := List.lookup_eq_none_iff.mp wrote _ entry
    rw [bne_self_eq_false] at other
    cases other
  | some item =>
    obtain ⟨g, listed, r, _, _, same, found⟩ := written_cases wrote
    obtain rfl := List.append_cancel_left same
    rcases found with rfl | ⟨_, rfl⟩
    · have one := s.apart g listed f member (leads.trans (List.dropLast_prefix f.1))
      rw [one] at leads deep
      have short := leads.length_le
      have long := List.length_pos_iff.mpr deep
      rw [List.length_dropLast] at short
      omega
    · rfl

-- No file of a stock lies outside of the directory or where the program keeps what is its own.
theorem not_leads {f : Place × ByteArray} (member : f ∈ s.files) {p : Place} (deep : p ≠ [])
    (leads : p <+: f.1) (aside : ¬Below home q ∨ metadataPlace home <+: q) : ¬home ++ p <+: q := by
  intro on
  rcases aside with outside | own
  · refine outside ⟨(List.prefix_append home p).trans on, ?_⟩
    rintro rfl
    have short := on.length_le
    have long := List.length_pos_iff.mpr deep
    rw [List.length_append] at short
    omega
  · have long := List.length_pos_iff.mpr deep
    have within : metadataPlace home <+: home ++ p := by
      refine List.prefix_of_prefix_length_le own on ?_
      rw [metadataPlace, List.length_append, List.length_append]
      exact Nat.add_le_add_left long home.length
    obtain ⟨more, same⟩ := ((List.prefix_append_right_inj home).mp within).trans leads
    refine (s.inside f member).2 ?_
    rw [← same]
    rfl

theorem stays_iff : s.stays old home d q = true ↔
    (∀ f ∈ s.files, ¬home ++ f.1 <+: q) ∧
      ∀ f ∈ old.files, home ++ f.1 = q → d.item? q = some .directory := by
  unfold stays
  simp only [Bool.and_eq_true, Bool.not_eq_true', List.any_eq_false, List.isPrefixOf_iff_prefix,
    decide_eq_true_eq, not_and, Decidable.not_not]

theorem reset_aside (aside : ¬Below home q ∨ metadataPlace home <+: q) :
    (s.reset old home d).item? q = d.item? q := by
  refine Disk.item?_remade_kept ?_ (stays_iff.mpr ⟨fun f member => ?_, fun f member same => ?_⟩)
  · cases wrote : (s.written home).lookup q with
    | none => rfl
    | some item =>
      obtain ⟨f, member, p, deep, leads, rfl, _⟩ := written_cases wrote
      exact absurd List.prefix_rfl (not_leads member deep leads aside)
  · exact not_leads member (s.inside f member).1 List.prefix_rfl aside
  · exact absurd (same ▸ List.prefix_rfl)
      (not_leads member (old.inside f member).1 List.prefix_rfl aside)

theorem reset_sound (sound : d.Sound) (there : d.item? home = some .directory) :
    (s.reset old home d).Sound := by
  intro q present
  by_cases root : q = []
  · rw [root]
    rfl
  have entry := present
  unfold reset at entry
  rw [Disk.item?_remade, if_neg root] at entry
  cases wrote : (s.written home).lookup q with
  | some item =>
    obtain ⟨f, member, p, deep, leads, rfl, found⟩ := written_cases wrote
    rw [List.dropLast_append_of_ne_nil deep]
    by_cases first : p.dropLast = []
    · rw [first, List.append_nil, reset_aside (.inl not_below_home), there]
    · refine reset_above member first ?_
      rcases found with rfl | ⟨upper, _⟩
      · exact List.prefix_rfl
      · exact p.dropLast_prefix.trans upper
  | none =>
    rw [wrote, Option.none_or] at entry
    cases kept : s.stays old home d q with
    | false =>
      rw [kept] at entry
      cases entry
    | true =>
      rw [kept, if_pos rfl] at entry
      obtain ⟨clear, _⟩ := stays_iff.mp kept
      have parent := sound q entry
      by_cases top : q.dropLast = []
      · rw [top]
        rfl
      cases upper : (s.written home).lookup q.dropLast with
      | some item =>
        obtain ⟨f, member, p, deep, leads, same, found⟩ := written_cases upper
        rcases found with rfl | ⟨_, rfl⟩
        · exact absurd (same ▸ q.dropLast_prefix) (clear f member)
        · unfold reset
          rw [Disk.item?_remade, if_neg top, upper]
          rfl
      | none =>
        have stays : s.stays old home d q.dropLast = true :=
          stays_iff.mpr ⟨fun f member leads => clear f member (leads.trans q.dropLast_prefix),
            fun _ _ _ => parent⟩
        exact (Disk.item?_remade_kept upper stays).trans parent

/-! ### Taking away what a stock lacks -/

-- The files of the stock stay, and the directories above them.
def keeps (s : Stock) (home : Place) (d : Disk) (q : Place) : Bool :=
  !(home.isPrefixOf q && q ≠ home) || (metadataPlace home).isPrefixOf q
    || s.files.any fun f =>
      q.isPrefixOf (home ++ f.1) && (q = home ++ f.1 || d.item? q = some .directory)

def clean (s : Stock) (home : Place) (d : Disk) : Disk := d.remade [] (s.keeps home d)

theorem keeps_iff : s.keeps home d q = true ↔
    (¬Below home q ∨ metadataPlace home <+: q) ∨
      ∃ f ∈ s.files, q <+: home ++ f.1 ∧ (q = home ++ f.1 ∨ d.item? q = some .directory) := by
  unfold keeps Below
  simp only [Bool.or_eq_true, Bool.not_eq_true', List.any_eq_true, Bool.and_eq_true,
    List.isPrefixOf_iff_prefix, decide_eq_true_eq, not_and_or, Decidable.not_not,
    ← Bool.not_eq_true]

theorem item?_clean (inside : q ≠ []) :
    (s.clean home d).item? q = if s.keeps home d q then d.item? q else none := by
  unfold clean
  rw [Disk.item?_remade, if_neg inside]
  rfl

theorem clean_aside (aside : ¬Below home q ∨ metadataPlace home <+: q) :
    (s.clean home d).item? q = d.item? q :=
  Disk.item?_remade_kept rfl (keeps_iff.mpr (.inl aside))

theorem clean_sound (sound : d.Sound) : (s.clean home d).Sound := by
  intro q present
  by_cases root : q = []
  · rw [root]
    rfl
  rw [item?_clean root] at present
  cases kept : s.keeps home d q with
  | false =>
    rw [kept] at present
    cases present
  | true =>
    rw [kept, if_pos rfl] at present
    have parent := sound q present
    have keeps : s.keeps home d q.dropLast = true := by
      refine keeps_iff.mpr ?_
      rcases keeps_iff.mp kept with (outside | own) | ⟨f, member, leads, _⟩
      · exact .inl (.inl (not_below_dropLast outside))
      · by_cases itself : q = metadataPlace home
        · rw [itself, metadataPlace, List.dropLast_concat]
          exact .inl (.inl not_below_home)
        · refine .inl (.inr ?_)
          obtain ⟨more, rfl⟩ := own
          have deep : more ≠ [] := fun none => itself (by rw [none, List.append_nil])
          rw [List.dropLast_append_of_ne_nil deep]
          exact List.prefix_append _ _
      · exact .inr ⟨f, member, q.dropLast_prefix.trans leads, .inr parent⟩
    exact (Disk.item?_remade_kept rfl keeps).trans parent

-- What is left inside of the directory.
theorem clean_inside (free : way.head? ≠ some metadataName) (deep : way ≠ []) {item : Item}
    (left : (s.clean home d).item? (home ++ way) = some item) :
    d.item? (home ++ way) = some item ∧
      ∃ f ∈ s.files, way <+: f.1 ∧ (way = f.1 ∨ item = .directory) := by
  have inside : home ++ way ≠ [] := fun root => deep (List.append_eq_nil_iff.mp root).2
  rw [item?_clean inside] at left
  cases kept : s.keeps home d (home ++ way) with
  | false =>
    rw [kept] at left
    cases left
  | true =>
    rw [kept, if_pos rfl] at left
    refine ⟨left, ?_⟩
    rcases keeps_iff.mp kept with (outside | own) | ⟨f, member, leads, found⟩
    · exact absurd (below_append deep) outside
    · exact absurd own (unkept_append free)
    · refine ⟨f, member, (List.prefix_append_right_inj home).mp leads, found.imp ?_ fun there => ?_⟩
      · exact List.append_cancel_left
      · exact Option.some.inj (left.symm.trans there)

theorem clean_files (there : d.item? home = some .directory) :
    workingTree (s.clean home d) home way
      = if (s.tree way).isSome then workingTree d home way else none := by
  cases cleaned : workingTree (s.clean home d) home way with
  | some content =>
    obtain ⟨free, left⟩ := workingTree_exact.mp cleaned
    have deep : way ≠ [] := by
      rintro rfl
      rw [List.append_nil, clean_aside (.inl not_below_home), there] at left
      cases left
    obtain ⟨before, f, member, _, found⟩ := clean_inside free deep left
    rcases found with rfl | other
    · rw [tree_isSome member, if_pos rfl, workingTree_exact.mpr ⟨free, before⟩]
    · cases other
  | none =>
    cases held : s.tree way with
    | none => rfl
    | some kept =>
      have member := mem_of_tree held
      cases before : workingTree d home way with
      | none => rfl
      | some content =>
        obtain ⟨free, present⟩ := workingTree_exact.mp before
        have keeps : s.keeps home d (home ++ way) = true :=
          keeps_iff.mpr (.inr ⟨_, member, List.prefix_rfl, .inl rfl⟩)
        have left : (s.clean home d).item? (home ++ way) = some (.file content) :=
          (Disk.item?_remade_kept rfl keeps).trans present
        rw [workingTree_exact.mpr ⟨free, left⟩] at cleaned
        cases cleaned

end Stock
end Git
end InlineProject
