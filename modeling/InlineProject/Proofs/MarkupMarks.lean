import Mathlib
import InlineProject.Proofs.MarkupTree
import InlineProject.Xml.Printer
/-!
The prefixes of a written tree. Every namespace that a tree uses has one, but for the namespace of the
language itself; the prefixes are names that can be bound, and no two namespaces share one.
-/

namespace InlineProject.Xml

variable {marks : Marks} {uri mark : String} {n : Name}

/-! ### Well-known and numberedMark prefixes -/

-- The prefix of a namespace that is not well-known; the number is how many have one already.
def numberedMark (i : Nat) : String := "ns" ++ toString i

theorem numberedMark_injective {i j : Nat} (same : numberedMark i = numberedMark j) : i = j := by
  have digits : toString i = toString j := by
    have lists := congrArg String.toList same
    rw [numberedMark, numberedMark, String.toList_append, String.toList_append] at lists
    exact String.toList_inj.mp (List.append_cancel_left lists)
  exact Nat.repr_injective digits

theorem continuesName_digit {c : Char} (digit : c.isDigit = true) : continuesName c = true := by
  simp only [Char.isDigit, Bool.and_eq_true, decide_eq_true_eq] at digit
  have bounds : 0x30 ≤ c.toNat ∧ c.toNat ≤ 0x39 := ⟨digit.1, digit.2⟩
  rw [continuesName, Bool.or_eq_true]
  refine .inr (List.any_eq_true.mpr ⟨(0x30, 0x39), by decide, ?_⟩)
  simp [bounds]

theorem numberedMark_label (i : Nat) : Label (numberedMark i) := by
  have chars : (numberedMark i).toList = 'n' :: 's' :: Nat.toDigits 10 i := by
    rw [numberedMark, String.toList_append, Nat.toString_eq_repr, Nat.toList_repr]
    rfl
  refine ⟨⟨'n', _, chars, by decide⟩, fun c member => ?_⟩
  rw [chars] at member
  rcases List.mem_cons.mp member with rfl | member
  · decide
  · rcases List.mem_cons.mp member with rfl | member
    · decide
    · exact continuesName_digit (Nat.isDigit_of_mem_toDigits (by decide) (by decide) member)

theorem wellKnown_label (found : wellKnown.lookup uri = some mark) : Label mark ∧ mark ≠ "xmlns" := by
  have all : ∀ mark ∈ wellKnown.map Prod.snd, Label mark ∧ mark ≠ "xmlns" := by decide
  exact all mark (List.mem_map_of_mem (lookup_mem found))

theorem wellKnown_injective {other : String} (found : wellKnown.lookup uri = some mark)
    (found' : wellKnown.lookup other = some mark) : uri = other := by
  have distinct : (wellKnown.map Prod.snd).Nodup := by decide
  have same := List.inj_on_of_nodup_map distinct (lookup_mem found) (lookup_mem found') rfl
  exact congrArg Prod.fst same

theorem wellKnown_numbered (found : wellKnown.lookup uri = some mark) (i : Nat) :
    mark ≠ numberedMark i := by
  have all : ∀ mark ∈ wellKnown.map Prod.snd, mark.toList.take 2 ≠ ['n', 's'] := by decide
  rintro rfl
  refine all _ (List.mem_map_of_mem (lookup_mem found)) ?_
  rw [numberedMark, String.toList_append]
  rfl

theorem wellKnown_xml (found : wellKnown.lookup uri = some "xml") : uri = xmlSpace :=
  wellKnown_injective found (by decide +kernel)

/-! ### The series -/

-- Prefixes in the order of their first use: each is the one that its place and its namespace call for.
inductive Series : Marks → Prop where
  | nil : Series []
  | snoc {marks : Marks} {uri : String} (before : Series marks) (new : marks.lookup uri = none)
      (space : Space uri) (other : uri ≠ xmlSpace) :
      Series (marks ++ [(uri, (wellKnown.lookup uri).getD (numberedMark marks.length))])

structure Mark (uri mark : String) : Prop where
  space : Space uri
  other : uri ≠ xmlSpace
  label : Label mark
  unreserved : mark ≠ "xml"
  undeclared : mark ≠ "xmlns"

theorem numberedMark_start {i : Nat} (same : numberedMark i = mark) : mark.toList.take 2 = ['n', 's'] := by
  rw [← same, numberedMark, String.toList_append]
  rfl

theorem mark_chosen (space : Space uri) (other : uri ≠ xmlSpace) (i : Nat) :
    Mark uri ((wellKnown.lookup uri).getD (numberedMark i)) := by
  cases found : wellKnown.lookup uri with
  | none =>
    refine ⟨space, other, numberedMark_label i, fun same => ?_, fun same => ?_⟩
    · exact absurd (numberedMark_start same) (by decide)
    · exact absurd (numberedMark_start same) (by decide)
  | some mark =>
    obtain ⟨label, free⟩ := wellKnown_label found
    refine ⟨space, other, label, ?_, free⟩
    rintro rfl
    exact other (wellKnown_xml found)

theorem Series.entry (series : Series marks) (member : (uri, mark) ∈ marks) : Mark uri mark := by
  induction series with
  | nil => cases member
  | snoc _ _ space other ih =>
    rcases List.mem_append.mp member with old | last
    · exact ih old
    · cases List.mem_singleton.mp last
      exact mark_chosen space other _

theorem Series.origin (series : Series marks) (member : (uri, mark) ∈ marks) :
    wellKnown.lookup uri = some mark ∨ ∃ i < marks.length, mark = numberedMark i := by
  induction series with
  | nil => cases member
  | @snoc marks _ _ _ _ _ ih =>
    rw [List.length_append]
    rcases List.mem_append.mp member with old | last
    · exact (ih old).imp_right fun ⟨i, before, same⟩ => ⟨i, Nat.lt_add_right _ before, same⟩
    · cases List.mem_singleton.mp last
      cases wellKnown.lookup uri with
      | none => exact .inr ⟨marks.length, Nat.lt_add_one _, rfl⟩
      | some _ => exact .inl rfl

theorem Series.distinct (series : Series marks) : (marks.map Prod.snd).Nodup := by
  induction series with
  | nil => exact List.nodup_nil
  | @snoc marks uri before new space other ih =>
    rw [List.map_append, List.nodup_append]
    refine ⟨ih, List.nodup_singleton _, fun old among new' last => ?_⟩
    rw [List.mem_singleton.mp last]
    obtain ⟨⟨uri', old⟩, member, rfl⟩ := List.mem_map.mp among
    have unlike : uri' ≠ uri := by
      rintro rfl
      simpa using List.lookup_eq_none_iff.mp new _ member
    rintro rfl
    dsimp only at member
    rcases before.origin member with known | ⟨i, small, same⟩
    · cases found : wellKnown.lookup uri with
      | none =>
        rw [found] at known
        exact wellKnown_numbered known _ rfl
      | some mark =>
        rw [found] at known
        exact unlike (wellKnown_injective known found)
    · cases found : wellKnown.lookup uri with
      | none =>
        rw [found] at same
        exact absurd (numberedMark_injective same) (Nat.ne_of_gt small)
      | some mark =>
        rw [found] at same
        exact wellKnown_numbered found i same

theorem Series.injective {other : String} (series : Series marks) (found : marks.lookup uri = some mark)
    (found' : marks.lookup other = some mark) : uri = other := by
  have same := List.inj_on_of_nodup_map series.distinct (lookup_mem found) (lookup_mem found') rfl
  exact congrArg Prod.fst same

/-! ### The marks of a tree -/

-- A namespace that can be written: every one but that of the language needs a prefix.
def Covered (marks : Marks) (uri : String) : Prop :=
  uri = xmlSpace ∨ (marks.lookup uri).isSome = true

def Name.Covered (marks : Marks) (n : Name) : Prop := ∀ uri, n.space = some uri → Xml.Covered marks uri

theorem addSpace_series (series : Series marks) (space : Space uri) : Series (addSpace marks uri) := by
  unfold addSpace
  split
  · exact series
  · rename_i new
    dsimp only
    split
    · exact series
    · rename_i unreserved
      refine .snoc series (Option.not_isSome_iff_eq_none.mp new) space ?_
      rintro rfl
      have reserved : wellKnown.lookup xmlSpace = some "xml" := by decide +kernel
      exact unreserved (by rw [reserved]; rfl)

theorem addSpace_covered : Covered (addSpace marks uri) uri := by
  unfold addSpace
  split
  · exact .inr ‹_›
  · rename_i new
    dsimp only
    split
    · rename_i reserved
      refine .inl ?_
      cases found : wellKnown.lookup uri with
      | none =>
        rw [found] at reserved
        exact absurd (numberedMark_start reserved) (by decide)
      | some mark =>
        rw [found] at reserved
        cases reserved
        exact wellKnown_xml found
    · refine .inr ?_
      rw [List.lookup_append]
      simp [List.lookup]

theorem addSpace_prefix : marks <+: addSpace marks uri := by
  unfold addSpace
  split
  · exact List.prefix_rfl
  · dsimp only
    split
    · exact List.prefix_rfl
    · exact List.prefix_append _ _

theorem Covered.mono {more : Marks} (covered : Covered marks uri) (extends_ : marks <+: more) :
    Covered more uri := by
  obtain ⟨back, rfl⟩ := extends_
  refine covered.imp_right fun known => ?_
  rw [List.lookup_append]
  cases found : marks.lookup uri with
  | none =>
    rw [found] at known
    cases known
  | some mark => rfl

-- All names of a tree, in the order in which their prefixes are chosen.
mutual
def Node.names : Node → List Name
  | .comment _ _ => []
  | .element name attributes _ children _ => name :: attributes.map (·.1) ++ namesAll children

def namesAll : List Node → List Name
  | [] => []
  | n :: rest => n.names ++ namesAll rest
end

theorem mem_namesAll {nodes : List Node} : n ∈ namesAll nodes ↔ ∃ m ∈ nodes, n ∈ m.names := by
  induction nodes with
  | nil => simp [namesAll]
  | cons m nodes ih => simp [namesAll, ih]

mutual
theorem Node.collectMarks_names (marks : Marks) :
    (n : Node) → n.collectMarks marks = n.names.foldl addName marks
  | .comment _ _ => rfl
  | .element name attributes _ children _ => by
    rw [Node.collectMarks, Node.names, List.foldl_append, collectAll_names]

theorem collectAll_names (marks : Marks) :
    (nodes : List Node) → collectAll marks nodes = (namesAll nodes).foldl addName marks
  | [] => rfl
  | n :: rest => by
    rw [collectAll, namesAll, List.foldl_append, Node.collectMarks_names, collectAll_names]
end

theorem addName_prefix : marks <+: addName marks n := by
  unfold addName
  split
  · exact addSpace_prefix
  · exact List.prefix_rfl

theorem addNames_prefix {names : List Name} : marks <+: names.foldl addName marks := by
  induction names generalizing marks with
  | nil => exact List.prefix_rfl
  | cons n rest ih => exact addName_prefix.trans ih

theorem addNames_series {names : List Name} (series : Series marks) (proper : ∀ n ∈ names, n.Proper) :
    Series (names.foldl addName marks) := by
  induction names generalizing marks with
  | nil => exact series
  | cons n rest ih =>
    refine ih ?_ fun m member => proper m (List.mem_cons_of_mem _ member)
    unfold addName
    split
    · rename_i uri spaced
      exact addSpace_series series ((proper n List.mem_cons_self).space uri spaced)
    · exact series

theorem addNames_covered {names : List Name} (member : n ∈ names) :
    n.Covered (names.foldl addName marks) := by
  induction names generalizing marks with
  | nil => cases member
  | cons m rest ih =>
    rcases List.mem_cons.mp member with rfl | later
    · intro uri spaced
      have first : Covered (addName marks n) uri := by
        unfold addName
        rw [spaced]
        exact addSpace_covered
      exact first.mono addNames_prefix
    · exact ih later

theorem collectMarks_series {n : Node} (proper : ∀ name ∈ n.names, name.Proper) :
    Series (n.collectMarks []) := by
  rw [Node.collectMarks_names]
  exact addNames_series .nil proper

theorem collectMarks_covered {n : Node} {name : Name} (member : name ∈ n.names) :
    name.Covered (n.collectMarks []) := by
  rw [Node.collectMarks_names]
  exact addNames_covered member

end InlineProject.Xml
