import Mathlib.Data.List.TakeWhile
import InlineProject.Proofs.VersionControl
/-!
Listings of files. Whether a listing gives any names depends on what it tells of and not on the order in
which it does.
-/

namespace InlineProject

/-! ### Blank texts -/

theorem isBlank_of_isBoundary {c : Char} (boundary : Lines.isBoundary c = true) :
    isBlank c = true := by
  simp only [Lines.isBoundary, isBlank, Bool.or_eq_true, Bool.and_eq_true, decide_eq_true_eq,
    beq_iff_eq] at boundary ⊢
  omega

theorem isBlankText_append {cs ds : List Char} :
    Blank.isBlankText (cs ++ ds) = true ↔
      Blank.isBlankText cs = true ∧ Blank.isBlankText ds = true := by
  unfold Blank.isBlankText
  rw [List.all_append, Bool.and_eq_true]

theorem isBlankText_reverse {cs : List Char} :
    Blank.isBlankText cs.reverse = Blank.isBlankText cs := List.all_reverse

theorem trim_nil_iff {cs : List Char} : Blank.trim cs = [] ↔ Blank.isBlankText cs = true := by
  unfold Blank.trim Blank.trimEnd Blank.trimStart Blank.isBlankText
  rw [List.reverse_eq_nil_iff, List.dropWhile_eq_nil_iff, List.all_eq_true]
  constructor
  · intro ends
    have none : cs.dropWhile isBlank = [] := by
      cases left : cs.dropWhile isBlank with
      | nil => rfl
      | cons c rest =>
        -- what is left begins with a character that is no blank
        have some : cs.dropWhile isBlank ≠ [] := by
          rw [left]
          exact List.cons_ne_nil c rest
        have first := List.head_dropWhile_not isBlank some
        rw [ends _ (List.mem_reverse.mpr (List.head_mem some))] at first
        cases first
    exact List.dropWhile_eq_nil_iff.mp none
  · intro all c member
    exact all c ((List.dropWhile_suffix isBlank).subset (List.mem_reverse.mp member))

-- The characters between lines are blanks, so a text is blank when its lines are.
theorem splitFrom_blank {line cs : List Char} :
    (∀ l ∈ Lines.splitFrom line cs, Blank.isBlankText l = true) ↔
      Blank.isBlankText line = true ∧ Blank.isBlankText cs = true := by
  induction line, cs using Lines.splitFrom.induct with
  | case1 line empty =>
    rw [List.isEmpty_iff.mp empty]
    simp [Lines.splitFrom, Blank.isBlankText]
  | case2 line some =>
    simp [Lines.splitFrom, some, Blank.isBlankText]
  | case3 line rest ih =>
    rw [Lines.splitFrom, List.forall_mem_cons, ih, isBlankText_reverse]
    have blank : Blank.isBlankText ('\r' :: '\n' :: rest) = Blank.isBlankText rest := rfl
    rw [blank]
    simp [Blank.isBlankText]
  | case4 line c rest apart boundary ih =>
    rw [Lines.splitFrom.eq_3 _ _ _ apart, if_pos boundary, List.forall_mem_cons, ih,
      isBlankText_reverse]
    have blank := isBlank_of_isBoundary boundary
    simp [Blank.isBlankText, blank]
  | case5 line c rest apart inside ih =>
    rw [Lines.splitFrom.eq_3 _ _ _ apart, if_neg inside, ih]
    simp only [Blank.isBlankText, List.all_cons, Bool.and_eq_true]
    rw [and_assoc, and_left_comm]

namespace Git

-- The names in a listing, one a line.
def namesIn (listing : String) : List String :=
  ((Lines.split listing.toList).map fun line => String.ofList (Blank.trim line)).filter
    fun name => !name.isEmpty

theorem namesIn_nil_iff {listing : String} :
    namesIn listing = [] ↔ Blank.isBlankText listing.toList = true := by
  have lines : namesIn listing = [] ↔
      ∀ l ∈ Lines.split listing.toList, Blank.isBlankText l = true := by
    unfold namesIn
    rw [List.filter_eq_nil_iff, List.forall_mem_map]
    refine forall₂_congr fun l _ => ?_
    rw [Bool.not_eq_true', Bool.not_eq_false, String.isEmpty_iff, String.ofList_eq_empty_iff,
      trim_nil_iff]
  rw [lines]
  unfold Lines.split
  rw [splitFrom_blank]
  exact and_iff_right rfl

variable {σ : Type} {k : Keeping σ} {t t' : Tree} {text : String}

-- There are no names exactly where nothing but blanks is listed.
theorem Keeping.Lists.namesIn_nil (lists : k.Lists t t' text) : namesIn text = [] ↔ k.Silent t t' := by
  obtain ⟨ways, differ, rfl⟩ := lists
  rw [namesIn_nil_iff, String.toList_join, Blank.isBlankText, List.all_eq_true]
  constructor
  · intro all way apart
    refine List.all_eq_true.mpr fun c inside => all c (List.mem_flatMap.mpr ?_)
    refine ⟨k.print way ++ "\n", List.mem_map_of_mem ((differ way).mpr apart), ?_⟩
    rw [String.toList_append]
    exact List.mem_append_left _ inside
  · intro silent c member
    obtain ⟨line, listed, inside⟩ := List.mem_flatMap.mp member
    obtain ⟨way, told, rfl⟩ := List.mem_map.mp listed
    rw [String.toList_append] at inside
    rcases List.mem_append.mp inside with name | feed
    · exact List.all_eq_true.mp (silent way ((differ way).mp told)) c name
    · rw [List.mem_singleton.mp feed]
      rfl

end Git
end InlineProject
