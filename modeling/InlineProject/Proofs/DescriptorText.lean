import Mathlib.Algebra.Order.BigOperators.Group.List
import Mathlib.Algebra.Order.Ring.Nat
import InlineProject.Descriptor.Comment
import InlineProject.Proofs.HeadLexemes
import InlineProject.Proofs.PathWays
/-!
A descriptor is read back from the comment that it was written in. It has no margin of its own, so the margin that
is taken off is the blank behind the marks; only marks within its lines are lost.
-/

namespace InlineProject

variable {pattern cs by_ : List Char} {fuel : Nat}

/-! ### Marks within a line -/

namespace Replace

theorem allFrom_free (free : ¬pattern <:+: cs) : allFrom pattern by_ fuel cs = cs := by
  induction fuel generalizing cs with
  | zero => rfl
  | succ fuel ih =>
    cases cs with
    | nil => rfl
    | cons c rest =>
      have later : ¬pattern <:+: rest := fun inside => free (List.infix_cons inside)
      rw [allFrom, if_neg, ih later]
      intro marks
      exact free (List.isPrefixOf_iff_prefix.mp marks).isInfix

theorem allFrom_length_le : (allFrom pattern [] fuel cs).length ≤ cs.length := by
  induction fuel generalizing cs with
  | zero => exact Nat.le_refl _
  | succ fuel ih =>
    cases cs with
    | nil => exact Nat.le_refl _
    | cons c rest =>
      rw [allFrom]
      split
      · rw [List.nil_append]
        refine Nat.le_trans ih ?_
        rw [List.length_drop]
        exact Nat.sub_le _ _
      · exact Nat.succ_le_succ ih

-- What holds the pattern gets shorter.
theorem allFrom_length_lt (some : pattern ≠ []) (inside : pattern <:+: cs) (enough : cs.length ≤ fuel) :
    (allFrom pattern [] fuel cs).length < cs.length := by
  have long := List.length_pos_iff.mpr some
  induction fuel generalizing cs with
  | zero =>
    have := inside.length_le
    omega
  | succ fuel ih =>
    cases cs with
    | nil => exact absurd (List.infix_nil.mp inside) some
    | cons c rest =>
      rw [allFrom]
      split
      · rw [List.nil_append]
        refine Nat.lt_of_le_of_lt allFrom_length_le ?_
        rw [List.length_drop, List.length_cons]
        omega
      · rename_i apart
        rcases List.infix_cons_iff.mp inside with here | later
        · exact absurd (List.isPrefixOf_iff_prefix.mpr here) apart
        · exact Nat.succ_lt_succ (ih later (Nat.le_of_succ_le_succ enough))

end Replace

/-! ### Blanks at the end -/

namespace Blank

-- A text that does not end with a blank.
def Closed (cs : List Char) : Prop := ∀ c, cs.getLast? = some c → isBlank c = false

variable {blanks : List Char}

theorem trimEnd_append (all : ∀ c ∈ blanks, isBlank c = true) : trimEnd (cs ++ blanks) = trimEnd cs := by
  unfold trimEnd
  rw [List.reverse_append, List.dropWhile_append_of_pos fun c member => all c (List.mem_reverse.mp member)]

theorem trimEnd_closed (closed : Closed cs) : trimEnd cs = cs := by
  unfold trimEnd
  cases back : cs.reverse with
  | nil => exact (List.reverse_eq_nil_iff.mp back).symm
  | cons c rest =>
    have last : isBlank c = false := closed c (by rw [List.getLast?_eq_head?_reverse, back]; rfl)
    rw [List.dropWhile_cons_of_neg (by rw [last]; exact Bool.false_ne_true), ← back, List.reverse_reverse]

theorem Closed.append (front : List Char) (closed : Closed cs) (some : cs ≠ []) : Closed (front ++ cs) := by
  intro c last
  rw [List.getLast?_append_of_ne_nil _ some] at last
  exact closed c last

theorem trimEnd_begins (cs : List Char) : trimEnd cs <+: cs := by
  unfold trimEnd
  rw [← List.reverse_suffix, List.reverse_reverse]
  exact List.dropWhile_suffix _

theorem trim_append_length_le (cs : List Char) {c : Char} (blank : isBlank c = true) : (trim (cs ++ [c])).length ≤ cs.length := by
  have single : ∀ d ∈ [c], isBlank d = true := by simpa using blank
  unfold trim trimStart
  rw [List.dropWhile_append]
  split
  · rw [List.dropWhile_cons_of_pos blank]
    exact Nat.zero_le _
  · rw [trimEnd_append single]
    exact Nat.le_trans (trimEnd_begins _).length_le (List.dropWhile_suffix _).length_le

end Blank

/-! ### The margin -/

namespace Dedent

variable {ls : List (List Char)} {first l : List Char}

-- A line that is empty or begins with a space.
def Spaced (l : List Char) : Prop := l = [] ∨ ∃ rest, l = ' ' :: rest

theorem commonStart_length_le {as bs : List Char} : (commonStart as bs).length ≤ as.length := by
  fun_induction commonStart as bs with
  | case1 a as bs ih => exact Nat.succ_le_succ ih
  | case2 => exact Nat.zero_le _
  | case3 => exact Nat.zero_le _

theorem foldl_commonStart (as : List Char) (spaced : ∀ l ∈ ls, ∃ rest, l = ' ' :: rest) :
    ∃ rest, ls.foldl commonStart (' ' :: as) = ' ' :: rest ∧ rest.length ≤ as.length := by
  induction ls generalizing as with
  | nil => exact ⟨as, rfl, Nat.le_refl _⟩
  | cons l more ih =>
    obtain ⟨bs, rfl⟩ := spaced l List.mem_cons_self
    obtain ⟨rest, same, short⟩ := ih (commonStart as bs) fun l member => spaced l (List.mem_cons_of_mem _ member)
    exact ⟨rest, same, Nat.le_trans short commonStart_length_le⟩

-- The lines that hold something, without what follows their margin.
theorem margins_spaced (spaced : ∀ l ∈ ls, Spaced l) :
    ∀ m ∈ (ls.filter (!·.all isIndent)).map (·.takeWhile isIndent), ∃ rest, m = ' ' :: rest := by
  intro m listed
  obtain ⟨l, kept, rfl⟩ := List.mem_map.mp listed
  obtain ⟨inside, some⟩ := List.mem_filter.mp kept
  rcases spaced l inside with rfl | ⟨rest, rfl⟩
  · cases some
  · exact ⟨rest.takeWhile isIndent, rfl⟩

theorem margin_spaced (spaced : ∀ l ∈ ls, Spaced l) (listed : l ∈ ls) (some : l.all isIndent = false) :
    ∃ rest, margin ls = ' ' :: rest := by
  have spaces := margins_spaced spaced
  have here : l.takeWhile isIndent ∈ (ls.filter (!·.all isIndent)).map (·.takeWhile isIndent) :=
    List.mem_map_of_mem (List.mem_filter.mpr ⟨listed, by rw [some]; rfl⟩)
  unfold margin
  cases margins : (ls.filter (!·.all isIndent)).map (·.takeWhile isIndent) with
  | nil =>
    rw [margins] at here
    cases here
  | cons m more =>
    rw [margins] at spaces
    obtain ⟨as, rfl⟩ := spaces m List.mem_cons_self
    obtain ⟨rest, same, _⟩ := foldl_commonStart as fun l member => spaces l (List.mem_cons_of_mem _ member)
    exact ⟨rest, same⟩

-- A first line with a single space decides.
theorem margin_single {c : Char} {text : List Char} (spaced : ∀ l ∈ ls, Spaced l) (plain : isIndent c = false) :
    margin ((' ' :: c :: text) :: ls) = [' '] := by
  have spaces := margins_spaced spaced
  have kept : (!(' ' :: c :: text).all isIndent) = true := by simp [plain]
  have taken : (' ' :: c :: text).takeWhile isIndent = [' '] := by
    rw [List.takeWhile_cons_of_pos rfl, List.takeWhile_cons_of_neg (by rw [plain]; exact Bool.false_ne_true)]
  unfold margin
  rw [List.filter_cons_of_pos (p := fun l : List Char => !l.all isIndent) kept, List.map_cons, taken]
  obtain ⟨rest, same, short⟩ := foldl_commonStart [] spaces
  rw [List.length_eq_zero_iff.mp (Nat.le_zero.mp short)] at same
  exact same

-- What is left of a line without a margin.
def shortened (margin l : List Char) : List Char := if l.all isIndent then [] else l.drop margin.length

theorem lines_shortened : lines ls = ls.map (shortened (margin ls)) := rfl

theorem shortened_length (spaced : ∀ l ∈ ls, Spaced l) (listed : l ∈ ls) :
    (shortened (margin ls) l).length ≤ l.length - 1 := by
  unfold shortened
  split
  · exact Nat.zero_le _
  · rename_i some
    obtain ⟨rest, same⟩ := margin_spaced spaced listed (Bool.eq_false_iff.mpr some)
    rw [List.length_drop, same]
    exact Nat.sub_le_sub_left (Nat.succ_pos _) _

end Dedent

/-! ### The lines of a comment -/

namespace Source.DocLine

variable {l : DocLine} {lines : List DocLine}

-- The line without its line feed.
def bare (l : DocLine) : List Char := l.indent ++ l.ink ++ if l.returned then ['\r'] else []

theorem written_bare : l.written = l.bare ++ ['\n'] := by
  unfold written bare ending
  cases l.returned <;> simp

theorem bare_single (single : '\n' ∉ l.text) : '\n' ∉ l.bare := by
  have indent : '\n' ∉ l.indent := fun inside => absurd (l.indents _ inside) (by decide)
  have ink : '\n' ∉ l.ink := by
    unfold ink
    split <;> simp [single, lineDocMark]
  unfold bare
  split <;> simp [indent, ink]

theorem splitOn_block (single : ∀ l ∈ lines, '\n' ∉ l.text) : (block lines).splitOn '\n' = lines.map bare ++ [[]] := by
  induction lines with
  | nil => rfl
  | cons l more ih =>
    have feedless : '\n' ∉ l.bare := bare_single (single l List.mem_cons_self)
    have one : block (l :: more) = l.bare ++ '\n' :: block more := by
      unfold block
      rw [List.flatMap_cons, written_bare, List.append_assoc]
      rfl
    rw [one, List.splitOn_append_cons_self_of_not_mem feedless, ih fun l member => single l (List.mem_cons_of_mem _ member)]
    rfl

end Source.DocLine

namespace Descriptor

open Source Source.DocLine

variable {l : DocLine} {lines : List DocLine}

-- A line without the marks that stand in it.
def removed (cs : List Char) : List Char := Replace.allFrom lineDocMark.toList [] (cs.length + 2) cs

theorem isBlank_of_isIndent {c : Char} (indents : Source.isIndent c = true) : isBlank c = true := by
  simp only [Source.isIndent, Bool.or_eq_true, beq_iff_eq] at indents
  rcases indents with rfl | rfl <;> rfl

theorem trim_bare (closed : Blank.Closed l.text) : Blank.trim l.bare = l.ink := by
  have indents : ∀ c ∈ l.indent, isBlank c = true := by
    intro c inside
    exact isBlank_of_isIndent (l.indents c inside)
  have returns : ∀ c ∈ if l.returned then ['\r'] else [], isBlank c = true := by
    split <;> simp [isBlank]
  have ends : Blank.Closed l.ink := by
    unfold ink
    split
    · intro c last
      cases last
      rfl
    · rename_i some
      exact Blank.Closed.append (lineDocMark.toList ++ [' ']) closed (by simpa using some)
  have start : Blank.trimStart l.bare = l.ink ++ if l.returned then ['\r'] else [] := by
    unfold Blank.trimStart bare
    rw [List.append_assoc, List.dropWhile_append_of_pos indents]
    rfl
  unfold Blank.trim
  rw [start, Blank.trimEnd_append returns, Blank.trimEnd_closed ends]

theorem lineText_bare (closed : Blank.Closed l.text) :
    lineText l.bare = Blank.trimEnd (if l.text.isEmpty then [] else ' ' :: removed l.text) := by
  unfold lineText
  rw [trim_bare closed]
  cases text : l.text with
  | nil =>
    have ink : l.ink = lineDocMark.toList := by
      unfold ink
      rw [text]
      rfl
    rw [ink]
    rfl
  | cons c rest =>
    have ink : l.ink = lineDocMark.toList ++ ' ' :: l.text := by
      unfold ink
      rw [text]
      rfl
    rw [ink, ← text, if_neg (by rw [text]; exact Bool.false_ne_true)]
    rfl

theorem lineText_spaced (closed : Blank.Closed l.text) : Dedent.Spaced (lineText l.bare) := by
  rw [lineText_bare closed]
  split
  · exact .inl rfl
  · have start := Blank.trimEnd_begins (' ' :: removed l.text)
    cases kept : Blank.trimEnd (' ' :: removed l.text) with
    | nil => exact .inl rfl
    | cons c more =>
      rw [kept] at start
      rw [(List.cons_prefix_cons.mp start).1]
      exact .inr ⟨more, rfl⟩

theorem lineText_length (closed : Blank.Closed l.text) : (lineText l.bare).length - 1 ≤ (removed l.text).length := by
  rw [lineText_bare closed]
  split
  · exact Nat.zero_le _
  · have short := (Blank.trimEnd_begins (' ' :: removed l.text)).length_le
    rw [List.length_cons] at short
    omega

theorem lineText_free (closed : Blank.Closed l.text) (free : ¬lineDocMark.toList <:+: l.text) :
    lineText l.bare = if l.text.isEmpty then [] else ' ' :: l.text := by
  have whole : removed l.text = l.text := Replace.allFrom_free free
  rw [lineText_bare closed, whole]
  split
  · rfl
  · rename_i some
    exact Blank.trimEnd_closed (Blank.Closed.append [' '] closed (by simpa using some))

-- A text without a margin or an end of blanks, as a whole and in each of its lines.
structure Neat (text : List Char) : Prop where
  unreturned : '\r' ∉ text
  starts : ∃ c rest, text = c :: rest ∧ isBlank c = false
  ends : ∃ c, text.getLast? = some c ∧ isBlank c = false
  lines : ∀ l ∈ text.splitOn '\n', Blank.Closed l

variable {text : List Char}

theorem intercalate_concat {ls : List (List Char)} (some : ls ≠ []) :
    List.intercalate ['\n'] (ls ++ [[]]) = List.intercalate ['\n'] ls ++ ['\n'] := by
  induction ls with
  | nil => exact absurd rfl some
  | cons l more ih =>
    cases more with
    | nil => simp [List.intercalate]
    | cons m others =>
      rw [List.cons_append, List.intercalate_cons_of_ne_nil (by simp), ih (List.cons_ne_nil _ _),
        List.intercalate_cons_cons]
      simp only [List.append_assoc]

theorem length_intercalate (ls : List (List Char)) (some : ls ≠ []) :
    (List.intercalate ['\n'] ls).length + 1 = (ls.map List.length).sum + ls.length := by
  induction ls with
  | nil => exact absurd rfl some
  | cons l more ih =>
    cases more with
    | nil => simp [List.intercalate]
    | cons m others =>
      have := ih (List.cons_ne_nil _ _)
      rw [List.intercalate_cons_cons, List.map_cons, List.sum_cons, List.length_append, List.length_append,
        List.length_cons]
      simp only [List.length_cons, List.length_nil] at this ⊢
      omega

-- The lines of a comment as they are read.
def readLines (lines : List DocLine) : List (List Char) := lines.map fun l => lineText l.bare

-- What is read of a line, without the margin that the lines share.
def readLine (lines : List DocLine) (l : DocLine) : List Char :=
  Dedent.shortened (Dedent.margin (readLines lines ++ [[]])) (lineText l.bare)

theorem ofComment_block (some : lines ≠ []) (single : ∀ l ∈ lines, '\n' ∉ l.text) :
    ofComment (String.ofList (block lines))
      = String.ofList (Blank.trim (List.intercalate ['\n'] (lines.map (readLine lines)) ++ ['\n'])) := by
  have read : (lines.map bare ++ [[]]).map lineText = readLines lines ++ [[]] := by
    unfold readLines
    rw [List.map_append, List.map_map]
    rfl
  have short : Dedent.lines (readLines lines ++ [[]]) = lines.map (readLine lines) ++ [[]] := by
    rw [Dedent.lines_shortened, List.map_append]
    unfold readLines
    rw [List.map_map]
    rfl
  unfold ofComment
  rw [String.toList_ofList, splitOn_block single]
  dsimp only
  rw [read, short, intercalate_concat (by simpa using some)]

theorem readLine_length (closed : ∀ l ∈ lines, Blank.Closed l.text) {l : DocLine} (listed : l ∈ lines) :
    (readLine lines l).length ≤ (removed l.text).length := by
  have spaced : ∀ t ∈ readLines lines ++ [[]], Dedent.Spaced t := by
    intro t member
    rcases List.mem_append.mp member with read | last
    · obtain ⟨l, inside, rfl⟩ := List.mem_map.mp read
      exact lineText_spaced (closed l inside)
    · exact .inl (List.mem_singleton.mp last)
  have here : lineText l.bare ∈ readLines lines ++ [[]] := List.mem_append_left _ (List.mem_map_of_mem listed)
  exact Nat.le_trans (Dedent.shortened_length spaced here) (lineText_length (closed l listed))

theorem single_of_splitOn (written : lines.map DocLine.text = text.splitOn '\n') : ∀ l ∈ lines, '\n' ∉ l.text :=
  fun _ listed => Path.not_mem_of_splitOn (written ▸ List.mem_map_of_mem listed)

theorem intercalate_lines (written : lines.map DocLine.text = text.splitOn '\n') :
    List.intercalate ['\n'] (lines.map DocLine.text) = text := by
  rw [written]
  exact List.intercalate_splitOn '\n'

-- Marks that are lost make what is read too short.
theorem ofComment_marks (neat : Neat text) (written : lines.map DocLine.text = text.splitOn '\n')
    (listed : l ∈ lines) (marks : lineDocMark.toList <:+: l.text) :
    ofComment (String.ofList (block lines)) ≠ String.ofList text := by
  intro same
  have some : lines ≠ [] := List.ne_nil_of_mem listed
  have closed : ∀ l ∈ lines, Blank.Closed l.text := fun l listed => neat.lines _ (written ▸ List.mem_map_of_mem listed)
  have shorter : (lines.map fun l => (readLine lines l).length).sum < (lines.map fun l => l.text.length).sum := by
    apply List.sum_lt_sum
    · intro l listed
      exact Nat.le_trans (readLine_length closed listed) Replace.allFrom_length_le
    · refine ⟨l, listed, Nat.lt_of_le_of_lt (readLine_length closed listed) ?_⟩
      exact Replace.allFrom_length_lt (by decide) marks (Nat.le_add_right _ _)
  have read := length_intercalate (lines.map (readLine lines)) (by simpa using some)
  have whole := length_intercalate (lines.map DocLine.text) (by simpa using some)
  rw [intercalate_lines written] at whole
  rw [ofComment_block some (single_of_splitOn written)] at same
  have trimmed := Blank.trim_append_length_le (List.intercalate ['\n'] (lines.map (readLine lines)))
    (c := '\n') rfl
  rw [String.ofList_inj.mp same] at trimmed
  simp only [List.map_map, List.length_map, Function.comp_def] at read whole
  omega

theorem shortened_space {cs : List Char} (closed : Blank.Closed cs) :
    Dedent.shortened [' '] (if cs.isEmpty then [] else ' ' :: cs) = cs := by
  cases cs with
  | nil => rfl
  | cons c rest =>
    have inked : (' ' :: c :: rest).all Dedent.isIndent = false := by
      refine Bool.eq_false_iff.mpr fun all => ?_
      have last := List.getLast?_eq_some_getLast (List.cons_ne_nil c rest)
      have indent := List.all_eq_true.mp all _ (List.mem_cons_of_mem _ (List.getLast_mem (List.cons_ne_nil c rest)))
      exact Bool.false_ne_true ((closed _ last).symm.trans (isBlank_of_isIndent indent))
    unfold Dedent.shortened
    rw [if_neg (c := (c :: rest).isEmpty = true) Bool.false_ne_true, inked]
    rfl

-- The first line leaves no margin but the blank behind the marks.
theorem margin_readLines (neat : Neat text) (written : lines.map DocLine.text = text.splitOn '\n')
    (free : ∀ l ∈ lines, ¬lineDocMark.toList <:+: l.text) : Dedent.margin (readLines lines ++ [[]]) = [' '] := by
  have closed : ∀ l ∈ lines, Blank.Closed l.text := fun l listed => neat.lines _ (written ▸ List.mem_map_of_mem listed)
  obtain ⟨c, rest, rfl, first⟩ := neat.starts
  have inked : Dedent.isIndent c = false := by
    refine Bool.eq_false_iff.mpr fun indent => ?_
    exact Bool.false_ne_true (first.symm.trans (isBlank_of_isIndent indent))
  have feed : ¬(c == '\n') = true := by
    intro same
    rw [beq_iff_eq.mp same] at first
    cases first
  rw [List.splitOn_cons_eq_if_modifyHead, if_neg feed] at written
  cases pieces : rest.splitOn '\n' with
  | nil => exact absurd pieces (List.splitOn_ne_nil _ _)
  | cons piece others =>
    rw [pieces] at written
    cases lines with
    | nil => cases written
    | cons l more =>
      have text : l.text = c :: piece := (List.cons.inj written).1
      have read : lineText l.bare = ' ' :: c :: piece := by
        rw [lineText_free (closed l List.mem_cons_self) (free l List.mem_cons_self), text]
        rfl
      unfold readLines
      rw [List.map_cons, List.cons_append, read]
      refine Dedent.margin_single (fun t member => ?_) inked
      rcases List.mem_append.mp member with line | last
      · obtain ⟨k, inside, rfl⟩ := List.mem_map.mp line
        exact lineText_spaced (closed k (List.mem_cons_of_mem _ inside))
      · exact .inl (List.mem_singleton.mp last)

theorem readLine_free (neat : Neat text) (written : lines.map DocLine.text = text.splitOn '\n')
    (free : ∀ l ∈ lines, ¬lineDocMark.toList <:+: l.text) (listed : l ∈ lines) : readLine lines l = l.text := by
  have closed : Blank.Closed l.text := neat.lines _ (written ▸ List.mem_map_of_mem listed)
  unfold readLine
  rw [margin_readLines neat written free, lineText_free closed (free l listed), shortened_space closed]

theorem trim_neat (neat : Neat text) : Blank.trim (text ++ ['\n']) = text := by
  obtain ⟨c, rest, rfl, first⟩ := neat.starts
  have start : Blank.trimStart (c :: rest ++ ['\n']) = c :: rest ++ ['\n'] :=
    List.dropWhile_cons_of_neg (by rw [first]; exact Bool.false_ne_true)
  have closed : Blank.Closed (c :: rest) := by
    obtain ⟨d, last, plain⟩ := neat.ends
    intro e here
    rw [last] at here
    rw [← Option.some.inj here]
    exact plain
  unfold Blank.trim
  rw [start, Blank.trimEnd_append (by simp [isBlank]), Blank.trimEnd_closed closed]

-- A descriptor is the first that is found in a file that begins with the comment it was written in, and it is what it
-- was exactly when no line of it holds the marks of a comment.
theorem written_comment_exact {g : Grammar} {rest : List Char} (mark : Bool) (neat : Neat text)
    (written : lines.map DocLine.text = text.splitOn '\n') (reads : g.ReadsHead lines rest) (ends : ¬OpensDoc rest) :
    ∃ n later,
      (Unit.parse g (String.ofList (marked mark (block lines ++ rest)))).descriptorComments = n :: later ∧
      n.text = String.ofList (block lines) ∧
      (ofComment n.text = String.ofList text ↔ ∀ l ∈ text.splitOn '\n', ¬lineDocMark.toList <:+: l) := by
  have some : lines ≠ [] := by
    rintro rfl
    exact List.splitOn_ne_nil _ _ written.symm
  have single := single_of_splitOn written
  obtain ⟨n, later, first, whole⟩ := descriptorComments_block mark some reads ends
  refine ⟨n, later, first, whole, ?_⟩
  rw [whole, ← written]
  constructor
  · intro same t listed marks
    obtain ⟨l, inside, rfl⟩ := List.mem_map.mp listed
    exact ofComment_marks neat written inside marks same
  · intro free
    have kept : lines.map (readLine lines) = lines.map DocLine.text :=
      List.map_congr_left fun l listed =>
        readLine_free neat written (fun l inside => free _ (List.mem_map_of_mem inside)) listed
    rw [ofComment_block some single, kept, intercalate_lines written, trim_neat neat]

example : ofComment "/// see /// there\n" = "see  there" := by decide +kernel

/-! ### A comment with an empty line -/

def notedText : List Char := "Sdk: A\n\n  Use:\t- b".toList

def notedLines : List DocLine :=
  [⟨[], "Sdk: A".toList, true, nofun⟩, ⟨['\t'], [], false, by simp [isIndent]⟩,
    ⟨[' ', ' '], "  Use:\t- b".toList, true, by simp [isIndent]⟩]

def notedRest : List Char := "// plain\nusing System;\nclass C { }\n".toList

theorem neat_notedText : Neat notedText where
  unreturned := by decide
  starts := ⟨'S', _, rfl, rfl⟩
  ends := ⟨'b', rfl, rfl⟩
  lines := by
    have pieces : notedText.splitOn '\n' = ["Sdk: A".toList, [], "  Use:\t- b".toList] := by decide
    rw [pieces]
    simp [Blank.Closed, isBlank]

theorem written_comment_exact_noted :
    Neat notedText ∧ notedLines.map DocLine.text = notedText.splitOn '\n' ∧
      grammar.ReadsHead notedLines notedRest ∧ ¬OpensDoc notedRest ∧
      ∃ n later,
        (Unit.parse grammar (String.ofList (marked true (block notedLines ++ notedRest)))).descriptorComments
          = n :: later ∧
        n.text = String.ofList (block notedLines) ∧
        (ofComment n.text = String.ofList notedText ↔ ∀ l ∈ notedText.splitOn '\n', ¬lineDocMark.toList <:+: l) := by
  have lines : notedLines.map DocLine.text = notedText.splitOn '\n' := by decide
  have reads : grammar.ReadsHead notedLines notedRest := grammar_readsHead (by simp [notedLines, Lexeme.isBreak])
  have ends : ¬OpensDoc notedRest := by
    unfold OpensDoc
    decide
  exact ⟨neat_notedText, lines, reads, ends, written_comment_exact true neat_notedText lines reads ends⟩

end Descriptor
end InlineProject
