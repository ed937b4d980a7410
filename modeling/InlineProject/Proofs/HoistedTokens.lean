import InlineProject.Proofs.SharedUsings
/-!
The tokens of using directives in the file for the whole project. Squeezing a directive leaves its code and its comments
apart as they were, up to a comment that ends with its line: there is one line only, so that all that follows it is lost.
-/

namespace InlineProject.Code

open InlineProject.Source (Node Lexeme)

/-! ### Reading code -/

-- White space between tokens: separators of Unicode, tabs, form feeds and the ends of lines.
def isNewline (c : Char) : Bool := c ∈ ['\n', '\r', '\u0085', '\u2028', '\u2029']

def isSpace (c : Char) : Bool :=
  c ∈ ['\t', '\x0B', '\x0C', ' ', '\u00A0', '\u1680', '\u202F', '\u205F', '\u3000'] ||
    (0x2000 ≤ c.toNat && c.toNat ≤ 0x200A)

def isLayout (c : Char) : Bool := isNewline c || isSpace c

-- Code without space in it, and comments. A block that nothing closes reaches to the end.
inductive Piece where
  | code (cs : List Char)
  | line
  | block
  | unclosed
deriving DecidableEq

inductive Mode where
  | code
  | line
  | block
deriving DecidableEq

-- The code that is being read is carried along in reverse.
def chunk (front : List Char) : List Piece := if front = [] then [] else [.code front.reverse]

def piecesFrom : Mode → List Char → List Char → List Piece
  | .code, front, [] => chunk front
  | .code, front, '/' :: '/' :: rest => chunk front ++ .line :: piecesFrom .line [] rest
  | .code, front, '/' :: '*' :: rest => chunk front ++ .block :: piecesFrom .block [] rest
  | .code, front, c :: rest =>
      if isLayout c then chunk front ++ piecesFrom .code [] rest else piecesFrom .code (c :: front) rest
  | .line, _, [] => []
  | .line, _, c :: rest => if isNewline c then piecesFrom .code [] rest else piecesFrom .line [] rest
  | .block, _, [] => [.unclosed]
  | .block, _, '*' :: '/' :: rest => piecesFrom .code [] rest
  | .block, _, _ :: rest => piecesFrom .block [] rest

def pieces (cs : List Char) : List Piece := piecesFrom .code [] cs

inductive Token where
  | word (cs : List Char)
  | sign (cs : List Char)
deriving DecidableEq

def word (front : List Char) : List Token := if front = [] then [] else [.word front.reverse]

-- Names with the marks of names that are words otherwise; two colons are one sign, all others stand alone.
def tokensFrom : List Char → List Char → List Token
  | front, [] => word front
  | front, ':' :: ':' :: rest => word front ++ .sign [':', ':'] :: tokensFrom [] rest
  | front, c :: rest =>
      if Lexeme.isWordChar c || c = '@' then tokensFrom (c :: front) rest
      else word front ++ .sign [c] :: tokensFrom [] rest

def Piece.chars : Piece → List Char
  | .code cs => cs
  | _ => []

def Piece.tokens (p : Piece) : List Token := tokensFrom [] p.chars

def tokens (cs : List Char) : List Token := (pieces cs).flatMap Piece.tokens

variable {front cs rest more e w : List Char} {c : Char} {gap : Bool} {mode : Mode} {ps qs : List Piece} {p : Piece}

theorem code_layout (layout : isLayout c = true) :
    piecesFrom .code front (c :: rest) = chunk front ++ piecesFrom .code [] rest := by
  have slash : c ≠ '/' := fun same => absurd (same ▸ layout) (by decide)
  rw [piecesFrom.eq_4 _ _ _ (fun _ same _ => slash same) (fun _ same _ => slash same), if_pos layout]

theorem code_next (solid : isLayout c = false) (line : c = '/' → rest.head? ≠ some '/')
    (block : c = '/' → rest.head? ≠ some '*') :
    piecesFrom .code front (c :: rest) = piecesFrom .code (c :: front) rest := by
  rw [piecesFrom.eq_4 _ _ _ (fun _ same more => line same (by rw [more]; rfl))
    (fun _ same more => block same (by rw [more]; rfl)), if_neg (by rw [solid]; decide)]

theorem block_next (apart : c = '*' → rest.head? ≠ some '/') :
    piecesFrom .block front (c :: rest) = piecesFrom .block [] rest := by
  rw [piecesFrom.eq_9 _ _ _ fun _ same more => apart same (by rw [more]; rfl)]

/-! ### Text without blanks at its ends and with single spaces -/

-- `gap` says that a blank stands before the text.
def tight : Bool → List Char → List Char
  | _, [] => []
  | gap, c :: rest => if isBlank c then tight true rest else (if gap then [' '] else []) ++ c :: tight false rest

theorem tight_blank (blank : isBlank c = true) : tight gap (c :: rest) = tight true rest := if_pos blank

theorem tight_solid (solid : isBlank c = false) :
    tight gap (c :: rest) = (if gap then [' '] else []) ++ c :: tight false rest :=
  if_neg (by rw [solid]; decide)

theorem tight_words {word : List Char} : (Blank.wordsFrom word cs).flatMap (' ' :: ·) =
    if word = [] then tight true cs else ' ' :: (word.reverse ++ tight false cs) := by
  induction cs generalizing word with
  | nil => cases word <;> simp [Blank.wordsFrom, tight]
  | cons c cs ih =>
    unfold Blank.wordsFrom
    by_cases blank : isBlank c = true
    · rw [if_pos blank, tight_blank blank, tight_blank blank]
      cases word with
      | nil => exact ih
      | cons d word =>
        rw [List.isEmpty_cons, if_neg Bool.false_ne_true, List.flatMap_cons, ih, if_pos rfl,
          if_neg (List.cons_ne_nil _ _)]
        rfl
    · rw [Bool.not_eq_true] at blank
      rw [blank, if_neg (by decide), ih, if_neg (List.cons_ne_nil _ _), tight_solid blank, tight_solid blank]
      cases word <;> simp

theorem flatMap_space {ws : List (List Char)} :
    ws.flatMap (' ' :: ·) = if ws = [] then [] else ' ' :: List.intercalate [' '] ws := by
  induction ws with
  | nil => rfl
  | cons w ws ih =>
    rw [List.flatMap_cons, ih, if_neg (List.cons_ne_nil _ _)]
    cases ws with
    | nil => simp
    | cons next ws => simp [List.intercalate_cons_cons]

-- Squeezed text reads as text with a space before it.
theorem piecesFrom_squeeze {s : String} :
    piecesFrom .code [] ((Blank.squeeze s).toList ++ e) = piecesFrom .code [] (tight true s.toList ++ e) := by
  have spaced : (Blank.wordsFrom [] s.toList).flatMap (' ' :: ·) = tight true s.toList := tight_words
  rw [flatMap_space] at spaced
  unfold Blank.squeeze Blank.words
  rw [String.toList_ofList, ← spaced]
  split
  · rename_i none
    rw [none]
    rfl
  · rw [List.cons_append, code_layout (by decide)]
    rfl

-- What can follow a line.
def EndsLine (e : List Char) : Prop := e = [] ∨ ∃ more, e = '\n' :: more

theorem endsLine_break : EndsLine ('\n' :: more) := .inr ⟨more, rfl⟩

theorem tight_head (ends : EndsLine e) (other : cs.head? ≠ some c) (solid : isBlank c = false) :
    (tight false cs ++ e).head? ≠ some c := by
  have newline : c ≠ '\n' := fun same => absurd (same ▸ solid) (by decide)
  have space : c ≠ ' ' := fun same => absurd (same ▸ solid) (by decide)
  have ending : e.head? ≠ some c := by
    rcases ends with rfl | ⟨more, rfl⟩
    · exact nofun
    · exact fun same => newline (Option.some.inj same).symm
  have gap (cs : List Char) : (tight true cs ++ e).head? ≠ some c := by
    induction cs with
    | nil => exact ending
    | cons d cs ih =>
      by_cases blank : isBlank d = true
      · rwa [tight_blank blank]
      · rw [Bool.not_eq_true] at blank
        rw [tight_solid blank]
        exact fun same => space (Option.some.inj same).symm
  cases cs with
  | nil => exact ending
  | cons d cs =>
    by_cases blank : isBlank d = true
    · rw [tight_blank blank]
      exact gap cs
    · rw [Bool.not_eq_true] at blank
      rw [tight_solid blank]
      exact other

theorem isBlank_of_isLayout (layout : isLayout c = true) : isBlank c = true := by
  unfold isLayout isNewline isSpace at layout
  rw [Bool.or_eq_true, Bool.or_eq_true, Bool.and_eq_true] at layout
  simp only [decide_eq_true_eq, List.mem_cons, List.not_mem_nil, or_false] at layout
  rcases layout with (rfl | rfl | rfl | rfl | rfl) | (rfl | rfl | rfl | rfl | rfl | rfl | rfl | rfl | rfl) | between
  case inr.inr =>
    simp only [isBlank, Bool.or_eq_true, Bool.and_eq_true, decide_eq_true_eq, beq_iff_eq]
    omega
  all_goals decide

-- Code ends at a gap.
theorem code_gap (ends : EndsLine e) :
    piecesFrom .code front (tight true cs ++ e) = chunk front ++ piecesFrom .code [] (tight true cs ++ e) := by
  have ending : piecesFrom .code front e = chunk front ++ piecesFrom .code [] e := by
    rcases ends with rfl | ⟨more, rfl⟩
    · exact (List.append_nil _).symm
    · rw [code_layout (by decide), code_layout (by decide)]
      rfl
  induction cs with
  | nil => exact ending
  | cons c cs ih =>
    by_cases blank : isBlank c = true
    · rwa [tight_blank blank]
    · rw [Bool.not_eq_true] at blank
      rw [tight_solid blank, if_pos rfl, List.append_assoc, List.singleton_append, code_layout (by decide),
        code_layout (by decide)]
      rfl

-- A comment to the end of the line takes all that is left of a line.
theorem line_rest (whole : ∀ c ∈ cs, isNewline c = false) (ends : EndsLine e) :
    piecesFrom .line front (cs ++ e) = piecesFrom .code [] e := by
  induction cs generalizing front with
  | nil =>
    rcases ends with rfl | ⟨more, rfl⟩
    · rfl
    · rw [code_layout (by decide)]
      rfl
  | cons c cs ih =>
    rw [List.forall_mem_cons] at whole
    rw [List.cons_append, piecesFrom, if_neg (by rw [whole.1]; decide), ih whole.2]

theorem tight_unbroken : ∀ c ∈ tight gap cs, isNewline c = false := by
  induction cs generalizing gap with
  | nil => exact List.forall_mem_nil _
  | cons c cs ih =>
    by_cases blank : isBlank c = true
    · rw [tight_blank blank]
      exact ih
    · rw [Bool.not_eq_true] at blank
      rw [tight_solid blank, List.forall_mem_append, List.forall_mem_cons]
      refine ⟨?_, Bool.eq_false_iff.mpr fun newline => ?_, ih⟩
      · cases gap
        · exact List.forall_mem_nil _
        · exact List.forall_mem_singleton.mpr rfl
      · rw [isBlank_of_isLayout (by unfold isLayout; rw [newline]; rfl)] at blank
        cases blank

/-! ### Pieces up to the end of a line -/

-- What is left of pieces in one line: a comment to its end takes the others.
def upToLine : List Piece → List Piece
  | [] => []
  | .line :: _ => [.line]
  | p :: rest => p :: upToLine rest

theorem upToLine_chunk : upToLine (chunk front ++ ps) = chunk front ++ upToLine ps := by
  unfold chunk
  split <;> rfl

-- Code that is being read is told with all its characters.
theorem mem_upToLine (code : mode = .code) (member : c ∈ front) :
    ∃ p ∈ upToLine (piecesFrom mode front cs), c ∈ p.chars := by
  have here {front : List Char} (member : c ∈ front) (ps : List Piece) :
      ∃ p ∈ upToLine (chunk front ++ ps), c ∈ p.chars := by
    have some : front ≠ [] := fun none => by
      rw [none] at member
      cases member
    unfold chunk
    rw [if_neg some]
    exact ⟨.code front.reverse, List.mem_cons_self, List.mem_reverse.mpr member⟩
  induction mode, front, cs using piecesFrom.induct with
  | case1 front =>
    rw [piecesFrom, ← List.append_nil (chunk front)]
    exact here member []
  | case2 front rest _ => exact here member _
  | case3 front rest _ => exact here member _
  | case4 front d rest _ _ layout _ =>
    rw [code_layout layout]
    exact here member _
  | case5 front d rest line block solid ih =>
    rw [piecesFrom.eq_4 _ _ _ line block, if_neg solid]
    exact ih rfl (List.mem_cons_of_mem _ member)
  | case6 | case7 | case8 | case9 | case10 | case11 => cases code

-- White space is blank everywhere. Some blanks are no white space, and code has none of them.
def Plain (ps : List Piece) : Prop := ∀ p ∈ ps, ∀ c ∈ p.chars, isBlank c = false

instance : Decidable (Plain ps) :=
  decidable_of_iff ((ps.all fun p => p.chars.all (!isBlank ·)) = true) (by simp [Plain, List.all_eq_true])

theorem Plain.later (plain : Plain (chunk front ++ ps)) : Plain ps :=
  fun p listed => plain p (List.mem_append_right _ listed)

theorem block_front : piecesFrom .block front cs = piecesFrom .block [] cs := by
  rcases cs with _ | ⟨c, rest⟩
  · rfl
  · by_cases closing : c = '*' ∧ rest.head? = some '/'
    · obtain ⟨more, rfl⟩ := List.head?_eq_some_iff.mp closing.2
      rw [closing.1]
      rfl
    · have apart (star : c = '*') (slash : rest.head? = some '/') : False := closing ⟨star, slash⟩
      rw [block_next apart, block_next apart]

-- A space before code or in a comment does not count.
theorem code_spaced (fresh : gap = true → front = []) :
    piecesFrom .code front ((if gap then [' '] else []) ++ cs) = piecesFrom .code front cs := by
  cases gap with
  | false => rfl
  | true =>
    rw [fresh rfl, if_pos rfl, List.singleton_append, code_layout (by decide)]
    rfl

theorem block_spaced : piecesFrom .block front ((if gap then [' '] else []) ++ cs) = piecesFrom .block [] cs := by
  cases gap with
  | false => exact block_front
  | true => exact block_next (by exact nofun)

-- In one line a text has its pieces up to a comment that takes the rest. The induction is on how the text is read.
theorem piecesFrom_tight (ends : EndsLine e) (inside : mode ≠ .line) (fresh : gap = true → mode = .code → front = [])
    (plain : Plain (upToLine (piecesFrom mode front cs))) (closed : .unclosed ∉ upToLine (piecesFrom mode front cs)) :
    piecesFrom mode front (tight gap cs ++ e) = upToLine (piecesFrom mode front cs) ++ piecesFrom .code [] e := by
  induction mode, front, cs using piecesFrom.induct generalizing gap with
  | case1 front =>
    have ended : piecesFrom .code front (tight true [] ++ e) = _ := code_gap ends
    rw [piecesFrom, ← List.append_nil (chunk front), upToLine_chunk, upToLine, List.append_nil]
    exact ended
  | case2 front rest _ =>
    rw [tight_solid (by decide), tight_solid (by decide), List.append_assoc, code_spaced fun spaced => fresh spaced rfl]
    change piecesFrom .code front ('/' :: '/' :: (tight false rest ++ e)) = _
    rw [piecesFrom, line_rest tight_unbroken ends, piecesFrom, upToLine_chunk, List.append_assoc]
    rfl
  | case3 front rest ih =>
    rw [piecesFrom, upToLine_chunk] at plain closed
    rw [tight_solid (by decide), tight_solid (by decide), List.append_assoc, code_spaced fun spaced => fresh spaced rfl]
    change piecesFrom .code front ('/' :: '*' :: (tight false rest ++ e)) = _
    have later := @ih false (by decide) (by exact nofun) (fun p listed =>
      plain.later p (List.mem_cons_of_mem _ listed)) fun listed =>
        closed (List.mem_append_right _ (List.mem_cons_of_mem _ listed))
    rw [piecesFrom, later, piecesFrom, upToLine_chunk, List.append_assoc]
    rfl
  | case4 front d rest _ _ layout ih =>
    rw [code_layout layout, upToLine_chunk] at plain closed
    have later := @ih true (by decide) (fun _ _ => rfl) plain.later fun listed =>
      closed (List.mem_append_right _ listed)
    rw [tight_blank (isBlank_of_isLayout layout), code_gap ends, later, code_layout layout, upToLine_chunk,
      List.append_assoc]
  | case5 front d rest line block solid ih =>
    have next := piecesFrom.eq_4 front d rest line block
    rw [if_neg solid] at next
    rw [next] at plain closed ⊢
    have told : ∃ p ∈ upToLine (piecesFrom .code (d :: front) rest), d ∈ p.chars :=
      mem_upToLine rfl List.mem_cons_self
    obtain ⟨p, listed, member⟩ := told
    have kept := plain p listed d member
    rw [Bool.not_eq_true] at solid
    rw [tight_solid kept, List.append_assoc, code_spaced fun spaced => fresh spaced rfl, List.cons_append,
      code_next solid (fun slash => tight_head ends ?_ (by decide)) (fun slash => tight_head ends ?_ (by decide))]
    · exact @ih false (by decide) (by exact nofun) plain closed
    · intro first
      obtain ⟨more, again⟩ := List.head?_eq_some_iff.mp first
      exact line more slash again
    · intro first
      obtain ⟨more, again⟩ := List.head?_eq_some_iff.mp first
      exact block more slash again
  | case6 | case7 | case8 => exact absurd rfl inside
  | case9 => exact absurd List.mem_cons_self closed
  | case10 front rest ih =>
    rw [tight_solid (by decide), tight_solid (by decide), List.append_assoc, block_spaced]
    exact @ih false (by decide) (by exact nofun) plain closed
  | case11 front d rest apart ih =>
    have next := piecesFrom.eq_9 front d rest apart
    rw [next] at plain closed ⊢
    by_cases blank : isBlank d = true
    · rw [tight_blank blank, block_front]
      exact @ih true (by decide) (by exact nofun) plain closed
    · rw [Bool.not_eq_true] at blank
      rw [tight_solid blank, List.append_assoc, block_spaced, List.cons_append,
        block_next fun star => tight_head ends ?_ (by decide)]
      · exact @ih false (by decide) (by exact nofun) plain closed
      · intro first
        obtain ⟨more, again⟩ := List.head?_eq_some_iff.mp first
        exact apart more star again

theorem pieces_squeeze {s : String} (ends : EndsLine e) (plain : Plain (upToLine (pieces s.toList)))
    (closed : .unclosed ∉ upToLine (pieces s.toList)) :
    pieces ((Blank.squeeze s).toList ++ e) = upToLine (pieces s.toList) ++ pieces e := by
  unfold pieces
  rw [piecesFrom_squeeze]
  exact piecesFrom_tight ends (by decide) (fun _ _ => rfl) plain closed

theorem tokens_newline : tokens ('\n' :: cs) = tokens cs := by
  unfold tokens pieces
  rw [code_layout (by decide)]
  rfl

theorem pieces_globalMark : pieces (Node.globalMark.toList ++ cs) = .code Node.globalWord.toList :: pieces cs := by
  rw [Node.globalMark_toList]
  rfl

-- The tokens behind a comment to the end of its line.
def behind : List Piece → List Token
  | [] => []
  | .line :: rest => rest.flatMap Piece.tokens
  | _ :: rest => behind rest

theorem tokens_parts : ps.flatMap Piece.tokens = (upToLine ps).flatMap Piece.tokens ++ behind ps := by
  induction ps with
  | nil => rfl
  | cons p ps ih =>
    cases p with
    | line => rfl
    | code | block | unclosed =>
      rw [upToLine, behind, List.flatMap_cons, List.flatMap_cons, ih, List.append_assoc]
      all_goals exact nofun

-- Lists that are cut short are the same together only if nothing is cut.
theorem flatMap_eq_iff {α β : Type} {f g b : α → List β} {xs : List α} (parts : ∀ x ∈ xs, g x = f x ++ b x) :
    xs.flatMap f = xs.flatMap g ↔ ∀ x ∈ xs, b x = [] := by
  have shorter {xs : List α} (parts : ∀ x ∈ xs, g x = f x ++ b x) : (xs.flatMap f).length ≤ (xs.flatMap g).length := by
    induction xs with
    | nil => exact Nat.le_refl _
    | cons x xs ih =>
      rw [List.forall_mem_cons] at parts
      have less := ih parts.2
      rw [List.flatMap_cons, List.flatMap_cons, parts.1]
      simp only [List.length_append]
      omega
  induction xs with
  | nil => exact iff_of_true rfl (List.forall_mem_nil _)
  | cons x xs ih =>
    rw [List.forall_mem_cons] at parts
    rw [List.flatMap_cons, List.flatMap_cons, parts.1, List.append_assoc, List.append_cancel_left_eq,
      List.forall_mem_cons]
    constructor
    · intro same
      have less := shorter parts.2
      have length := congrArg List.length same
      rw [List.length_append] at length
      have none : b x = [] := List.eq_nil_of_length_eq_zero (by omega)
      rw [none] at same
      exact ⟨none, (ih parts.2).mp same⟩
    · rintro ⟨none, later⟩
      rw [none, (ih parts.2).mpr later]
      rfl

end InlineProject.Code

/-! ### Directives for the whole project -/

namespace InlineProject.Source.Node

open InlineProject.Code

variable {e : List Char} {n m : Node} {ns : List Node}

def globalToken : Token := .word globalWord.toList

-- What a directive has to say to the whole project.
def hoisted (n : Node) : List Token :=
  if (tokens n.text.toList).head? = some globalToken then tokens n.text.toList
  else globalToken :: tokens n.text.toList

-- A directive without tokens behind a comment to the end of its line.
def Whole (n : Node) : Prop := behind (pieces n.text.toList) = []

instance : Decidable n.Whole := inferInstanceAs (Decidable (_ = _))

-- Directives without an open comment and without blanks that are no white space; the word for the whole project, if
-- they begin with it, stands before a space.
structure Ordinary (n : Node) : Prop where
  plain : Plain (upToLine (pieces n.text.toList))
  closed : .unclosed ∉ upToLine (pieces n.text.toList)
  marked : (tokens n.text.toList).head? = some globalToken → n.IsGlobal

instance : Decidable n.Ordinary :=
  decidable_of_iff (Plain (upToLine (pieces n.text.toList)) ∧ .unclosed ∉ upToLine (pieces n.text.toList) ∧
      ((tokens n.text.toList).head? = some globalToken → n.IsGlobal))
    ⟨fun parts => ⟨parts.1, parts.2.1, parts.2.2⟩, fun ordinary => ⟨ordinary.plain, ordinary.closed, ordinary.marked⟩⟩

-- What stands in the line of a directive.
def shown (n : Node) : List Token := (upToLine (pieces n.text.toList)).flatMap Piece.tokens

def told (n : Node) : List Token := if n.IsGlobal then n.shown else globalToken :: n.shown

theorem tokens_eq : tokens n.text.toList = n.shown ++ behind (pieces n.text.toList) := tokens_parts

-- A directive with the word and a space before the others begins with its token.
theorem Ordinary.first (ordinary : n.Ordinary) (marked : n.IsGlobal) :
    (tokens n.text.toList).head? = some globalToken := by
  obtain ⟨rest, starts⟩ := marked
  have read := pieces_squeeze (.inl rfl) ordinary.plain ordinary.closed
  rw [List.append_nil, ← starts, pieces_globalMark, show pieces [] = [] from rfl, List.append_nil] at read
  rw [tokens_eq, shown, ← read]
  rfl

-- What a directive says is what is told of it and what a comment takes.
theorem Ordinary.hoisted_eq (ordinary : n.Ordinary) : n.hoisted = n.told ++ behind (pieces n.text.toList) := by
  unfold hoisted told
  by_cases marked : n.IsGlobal
  · rw [if_pos (ordinary.first marked), if_pos marked, tokens_eq]
  · rw [if_neg fun first => marked (ordinary.marked first), if_neg marked, tokens_eq]
    rfl

theorem Ordinary.tokens_asGlobal (ordinary : n.Ordinary) (ends : EndsLine e) :
    tokens (n.asGlobal.toList ++ e) = n.told ++ tokens e := by
  have squeezed := pieces_squeeze ends ordinary.plain ordinary.closed
  unfold tokens told
  by_cases marked : n.IsGlobal
  · rw [asGlobal_marked marked, if_pos marked, squeezed, List.flatMap_append]
    rfl
  · rw [asGlobal_bare marked, if_neg marked, String.toList_append, List.append_assoc, pieces_globalMark, squeezed,
      List.flatMap_cons, List.flatMap_append]
    rfl

-- The lines have what is told of each directive, in order. The induction is on the directives.
theorem tokens_joined (ordinary : ∀ n ∈ ns, n.Ordinary) :
    tokens (List.intercalate ['\n'] (ns.map fun n => n.asGlobal.toList)) = ns.flatMap told := by
  induction ns with
  | nil => rfl
  | cons n ns ih =>
    rw [List.forall_mem_cons] at ordinary
    rw [List.flatMap_cons, ← ih ordinary.2, List.map_cons]
    cases ns with
    | nil =>
      have last := ordinary.1.tokens_asGlobal (.inl rfl)
      rw [List.append_nil] at last
      rw [List.map_nil, List.intercalate_singleton, last]
      rfl
    | cons next ns =>
      rw [List.map_cons, List.intercalate_cons_cons, List.append_assoc, List.singleton_append,
        ordinary.1.tokens_asGlobal endsLine_break, tokens_newline]

theorem Ordinary.tokens_squeeze (ordinary : n.Ordinary) (whole : n.Whole) :
    tokens (Blank.squeeze n.text).toList = tokens n.text.toList := by
  have squeezed := pieces_squeeze (.inl rfl) ordinary.plain ordinary.closed
  rw [List.append_nil, show pieces [] = [] from rfl, List.append_nil] at squeezed
  unfold Whole at whole
  rw [tokens_eq, whole, List.append_nil, shown, ← squeezed, tokens]

theorem tokens_of_key (first : m.Ordinary) (second : n.Ordinary) (wholeFirst : m.Whole) (wholeSecond : n.Whole)
    (same : m.key = n.key) : tokens m.text.toList = tokens n.text.toList := by
  rw [← first.tokens_squeeze wholeFirst, ← second.tokens_squeeze wholeSecond, (Prod.mk.inj same).2]

end InlineProject.Source.Node

/-! ### The file -/

namespace InlineProject.Scaffold

open InlineProject.Code
open InlineProject.Source (Node)

variable {σ : Type} {runner : Git.Runner σ} {w w' : World σ} {r : Git.Repository} {directory : Path}
  {stem suffix : String} {u kept : Source.Unit}

-- How the tokens of directives get into the file. They are all there unless one of the directives that are told has
-- tokens behind a comment, and if none has, no other directive says anything else.
structure Hoisted (u kept : Source.Unit) : Prop where
  complete : tokens (usingsText u).toList = u.distinctUsings.flatMap Node.hoisted ↔ ∀ n ∈ u.distinctUsings, n.Whole
  told : (∀ n ∈ u.usings, n.Whole) → ∀ n ∈ u.usings, ∃ m ∈ u.distinctUsings,
    u.usings.find? (fun d => d.key = n.key) = some m ∧ tokens m.text.toList = tokens n.text.toList
  order : u.distinctUsings.Sublist u.usings
  gone : kept.usings = []

theorem hoisted_exact (ordinary : ∀ n ∈ u.usings, n.Ordinary) :
    tokens (usingsText u).toList = u.distinctUsings.flatMap Node.hoisted ↔ ∀ n ∈ u.distinctUsings, n.Whole := by
  have told : ∀ n ∈ u.distinctUsings, n.Ordinary :=
    fun n listed => ordinary n (Source.Unit.distinctUsings_sublist.subset listed)
  unfold usingsText
  rw [String.toList_intercalate, List.map_map]
  exact (Eq.congr_left (Node.tokens_joined told)).trans (flatMap_eq_iff fun n listed => (told n listed).hoisted_eq)

theorem splitUsings_hoists (identified : u.Identified) (ordinary : ∀ n ∈ u.usings, n.Ordinary)
    (ran : (splitUsings r directory stem suffix u).run runner w = (.ok kept, w')) :
    Hoisted u kept ∧ (u.usings ≠ [] → ∃ noted staged, (noteUsings u.distinctUsings).run runner w = (.ok (), noted) ∧
      Taken runner r (directory.join (stem ++ suffix)) (usingsText u) noted staged) := by
  refine ⟨⟨hoisted_exact ordinary, fun whole n listed => ?_, Source.Unit.distinctUsings_sublist, ?_⟩,
    (splitUsings_taken ran).2⟩
  · obtain ⟨m, told, first⟩ := Source.Unit.distinctUsings_first listed
    have same := List.find?_some first
    have alsoListed := Source.Unit.distinctUsings_sublist.subset told
    exact ⟨m, told, first, Node.tokens_of_key (ordinary m alsoListed) (ordinary n listed) (whole m alsoListed)
      (whole n listed) (of_decide_eq_true same)⟩
  · rw [splitUsings_parts ran]
    refine List.eq_nil_iff_forall_not_mem.mpr fun n listed => ?_
    obtain ⟨left, directive⟩ := Source.Unit.mem_usings.mp listed
    rw [Source.Unit.without_usings_nodes identified, List.mem_filter, decide_eq_true_eq] at left
    exact left.2 directive

def winding : Source.Unit :=
  .ofParts [(.using, "using /* a // b */ A =\n  System\u00A0.Collections::B<int>; // c\n"),
    (.using, "global\tusing static System . Math;\n"), (.using, "using System;\n"), (.code, "class C { }\n")]

def cut : Source.Unit := .ofParts [(.using, "using System // base\n  .Text;\n"), (.code, "class C { }\n")]

-- A comment at the end of a directive takes nothing; one in its midst takes the rest.
theorem splitUsings_hoists_winding :
    (∃ kept w', (splitUsings ⟨⟨.root, ["bench"]⟩⟩ ⟨.root, ["bench"]⟩ "GlobalUsings" ".cs" winding).run willing bench
        = (.ok kept, w') ∧ Hoisted winding kept ∧
          tokens (usingsText winding).toList = winding.distinctUsings.flatMap Node.hoisted) ∧
      ∃ kept w', (splitUsings ⟨⟨.root, ["bench"]⟩⟩ ⟨.root, ["bench"]⟩ "GlobalUsings" ".cs" cut).run willing bench
        = (.ok kept, w') ∧ Hoisted cut kept ∧
          tokens (usingsText cut).toList ≠ cut.distinctUsings.flatMap Node.hoisted := by
  have identified : winding.Identified ∧ cut.Identified := by
    unfold Source.Unit.Identified
    decide
  have first : ∀ n ∈ winding.usings, n.Ordinary := by decide +kernel
  have second : ∀ n ∈ cut.usings, n.Ordinary := by decide +kernel
  have endedFirst : ((splitUsings ⟨⟨.root, ["bench"]⟩⟩ ⟨.root, ["bench"]⟩ "GlobalUsings" ".cs" winding).run willing
      bench).1 = .ok ⟨[⟨3, .code, "class C { }\n"⟩]⟩ := by decide +kernel
  have endedSecond : ((splitUsings ⟨⟨.root, ["bench"]⟩⟩ ⟨.root, ["bench"]⟩ "GlobalUsings" ".cs" cut).run willing
      bench).1 = .ok ⟨[⟨1, .code, "class C { }\n"⟩]⟩ := by decide +kernel
  have hoistsFirst := (splitUsings_hoists identified.1 first (Action.ok_of_result endedFirst)).1
  have hoistsSecond := (splitUsings_hoists identified.2 second (Action.ok_of_result endedSecond)).1
  refine ⟨⟨_, _, Action.ok_of_result endedFirst, hoistsFirst, hoistsFirst.complete.mpr (by decide +kernel)⟩,
    _, _, Action.ok_of_result endedSecond, hoistsSecond, fun same => ?_⟩
  exact absurd (hoistsSecond.complete.mp same) (by decide +kernel)

end InlineProject.Scaffold
