import InlineProject.Proofs.SourceLayout
import InlineProject.Source.Lexeme
/-!
A documentation comment at the head of a file. Its lines, each with an indentation and a line break of its own,
are one part of the file, and the first of its comments that may hold a descriptor.
-/

namespace InlineProject.Source

-- A line of text behind the marks of a documentation comment.
structure DocLine where
  indent : List Char
  text : List Char
  -- whether the line ends with a carriage return before its line feed
  returned : Bool
  indents : ∀ c ∈ indent, isIndent c = true

namespace DocLine

def ink (l : DocLine) : List Char :=
  lineDocMark.toList ++ if l.text.isEmpty then [] else ' ' :: l.text

def ending (l : DocLine) : List Char := if l.returned then ['\r', '\n'] else ['\n']

def written (l : DocLine) : List Char := l.indent ++ l.ink ++ l.ending

def block (lines : List DocLine) : List Char := lines.flatMap written

-- Where the comments of the lines are, from a place on.
def places : Nat → List DocLine → List Range
  | _, [] => []
  | place, l :: rest =>
      ⟨place + l.indent.length, place + l.indent.length + l.ink.length⟩ :: places (place + l.written.length) rest

end DocLine

open DocLine

-- The lines of a comment as one range from the start of the text.
def opened : List DocLine → List Span
  | [] => []
  | lines => [⟨⟨0, (block lines).length⟩, .lineDoc⟩]

-- A comment is closed by marks of its own or by the end of its line.
structure IsComment (cs : List Char) (r : Range) : Prop where
  within : r.Within cs.length
  marked : "/*".toList <+: cs.drop r.start ∨
    ("//".toList <+: cs.drop r.start ∧ textOf cs r = (cs.drop r.start).takeWhile (!Lexeme.isBreak ·))

-- A text whose first line is a documentation line.
def OpensDoc (cs : List Char) : Prop :=
  "///".toList <+: cs.dropWhile isIndent ∧ ¬"////".toList <+: cs.dropWhile isIndent

-- Each line of a comment at the head of a text is a comment to the grammar, and nothing else is there.
structure Grammar.ReadsHead (g : Grammar) (lines : List DocLine) (rest : List Char) : Prop where
  children : ∃ heads others, (g (block lines ++ rest)).children = heads ++ others ∧
    heads.map Tree.range = places 0 lines ∧ (∀ t ∈ heads, t.label = .comment) ∧
    ∀ t ∈ others, (block lines).length ≤ t.range.start
  comments : ∀ t ∈ (g (block lines ++ rest)).children, t.label = .comment → IsComment (block lines ++ rest) t.range

variable {cs front back rest : List Char} {l : DocLine} {lines before : List DocLine} {r : Range}

/-! ### One line -/

theorem startsLine_ending : startsLine (front ++ l.ending).reverse = true := by
  unfold ending
  rw [List.reverse_append]
  split <;> rfl

theorem startsLine_block : startsLine (block lines).reverse = true := by
  rcases List.eq_nil_or_concat lines with rfl | ⟨earlier, last, rfl⟩
  · rfl
  · unfold block
    rw [List.concat_eq_append, List.flatMap_append, List.flatMap_cons, List.flatMap_nil, List.append_nil]
    unfold written
    rw [← List.append_assoc]
    exact startsLine_ending

theorem takeWhile_startsLine (starts : startsLine cs = true) : cs.takeWhile isIndent = [] := by
  cases cs with
  | nil => rfl
  | cons c more =>
    rw [beq_iff_eq.mp starts]
    rfl

-- A line owns its indentation and its line break.
theorem extend_written (starts : startsLine front.reverse = true) :
    Range.extend (front ++ l.written ++ back)
        ⟨front.length + l.indent.length, front.length + l.indent.length + l.ink.length⟩
      = ⟨front.length, front.length + l.written.length⟩ := by
  have whole : front ++ l.written ++ back = front ++ l.indent ++ l.ink ++ (l.ending ++ back) := by
    simp only [written, List.append_assoc]
  have length : l.written.length = l.indent.length + l.ink.length + l.ending.length := by
    simp only [written, List.length_append]
  have before : (front ++ l.indent ++ l.ink ++ (l.ending ++ back)).take (front.length + l.indent.length)
      = front ++ l.indent := by
    rw [List.append_assoc, List.take_left' List.length_append]
  have behind : (front ++ l.indent ++ l.ink ++ (l.ending ++ back)).drop (front.length + l.indent.length + l.ink.length)
      = l.ending ++ back :=
    List.drop_left' (by simp only [List.length_append])
  have run : (l.indent.reverse ++ front.reverse).takeWhile isIndent = l.indent.reverse := by
    rw [List.takeWhile_append_of_pos fun c member => l.indents c (List.mem_reverse.mp member),
      takeWhile_startsLine starts, List.append_nil]
  rw [whole, length]
  unfold Range.extend
  dsimp only
  rw [before, behind, List.reverse_append, run, List.length_reverse, List.drop_left' (List.length_reverse),
    if_pos starts]
  unfold ending
  cases l.returned with
  | true => simp [isIndent]; omega
  | false => simp [isIndent]; omega

theorem classify_ink : classify l.ink = .lineDoc := by
  unfold ink
  cases l.text <;> rfl

theorem textOf_written : textOf (front ++ l.written ++ back)
    ⟨front.length + l.indent.length, front.length + l.indent.length + l.ink.length⟩ = l.ink := by
  have whole : front ++ l.written ++ back = front ++ l.indent ++ l.ink ++ (l.ending ++ back) := by
    simp only [written, List.append_assoc]
  unfold textOf
  dsimp only
  rw [whole, List.take_left' (by simp only [List.length_append]), List.drop_left' List.length_append]

/-! ### The lines together -/

theorem block_append {more : List DocLine} : block (lines ++ more) = block lines ++ block more := List.flatMap_append

theorem block_singleton : block [l] = l.written := List.append_nil _

theorem opened_append : opened (before ++ [l]) = [⟨⟨0, (block before).length + l.written.length⟩, .lineDoc⟩] := by
  have length : (block (before ++ [l])).length = (block before).length + l.written.length := by
    rw [block_append, block_singleton, List.length_append]
  rw [← length]
  cases before <;> rfl

theorem commentSpansFrom_continued {n : Nat} {more : List Range} (doc : classify (textOf cs r) = .lineDoc)
    (meets : n = (r.extend cs).start) :
    commentSpansFrom cs [⟨⟨0, n⟩, .lineDoc⟩] (r :: more)
      = commentSpansFrom cs [⟨⟨0, (r.extend cs).stop⟩, .lineDoc⟩] more := by
  rw [commentSpansFrom, doc, if_pos]
  simpa using meets

-- Each line continues what the lines before it have opened.
theorem commentSpansFrom_step {more : List Range} :
    commentSpansFrom (block before ++ l.written ++ back) (opened before)
        (⟨(block before).length + l.indent.length, (block before).length + l.indent.length + l.ink.length⟩ :: more)
      = commentSpansFrom (block before ++ l.written ++ back) (opened (before ++ [l])) more := by
  have doc : classify (textOf (block before ++ l.written ++ back)
      ⟨(block before).length + l.indent.length, (block before).length + l.indent.length + l.ink.length⟩)
        = .lineDoc := by
    rw [textOf_written, classify_ink]
  have grown := @extend_written (block before) back l startsLine_block
  rw [opened_append]
  cases before with
  | nil =>
    rw [opened, commentSpansFrom, doc, grown]
    rfl
  | cons first others =>
    have first_is : opened (first :: others) = [⟨⟨0, (block (first :: others)).length⟩, .lineDoc⟩] := rfl
    rw [first_is, commentSpansFrom_continued doc (by rw [grown]), grown]

theorem commentSpansFrom_lines {others : List Range} :
    commentSpansFrom (block before ++ block lines ++ back) (opened before) (places (block before).length lines ++ others)
      = commentSpansFrom (block before ++ block lines ++ back) (opened (before ++ lines)) others := by
  induction lines generalizing before with
  | nil => rw [List.append_nil]; rfl
  | cons l rest ih =>
    have one : block (l :: rest) = l.written ++ block rest := rfl
    have length : (block (before ++ [l])).length = (block before).length + l.written.length := by
      rw [block_append, block_singleton, List.length_append]
    have next := @ih (before ++ [l])
    rw [length, block_append, block_singleton, List.append_assoc _ [l]] at next
    rw [one, ← List.append_assoc (block before), List.append_assoc _ (block rest)]
    rw [List.append_assoc _ (block rest)] at next
    exact commentSpansFrom_step.trans next

-- What has been closed stays as it is.
theorem commentSpansFrom_closed {base : Span} {done : List Span} {comments : List Range}
    (apart : ∀ r ∈ comments, classify (textOf cs r) = .lineDoc → base.range.stop ≠ (r.extend cs).start) :
    ∃ later, commentSpansFrom cs (done ++ [base]) comments = base :: later := by
  induction comments generalizing done with
  | nil => exact ⟨done.reverse, List.reverse_append⟩
  | cons r comments ih =>
    have apart' : ∀ r ∈ comments, classify (textOf cs r) = .lineDoc → base.range.stop ≠ (r.extend cs).start :=
      fun r member => apart r (List.mem_cons_of_mem _ member)
    cases done with
    | nil =>
      rw [List.nil_append, commentSpansFrom, if_neg]
      · exact @ih [_] apart'
      · simp only [Bool.and_eq_true, decide_eq_true_eq]
        rintro ⟨⟨doc, _⟩, meets⟩
        exact apart r List.mem_cons_self doc meets
    | cons last earlier =>
      rw [List.cons_append, commentSpansFrom]
      split
      · exact @ih (_ :: earlier) apart'
      · exact @ih (_ :: last :: earlier) apart'

/-! ### What follows the lines -/

theorem classify_lineDoc (doc : classify cs = .lineDoc) :
    "///".toList <+: Blank.trimStart cs ∧ ¬"////".toList <+: Blank.trimStart cs := by
  unfold classify at doc
  dsimp only at doc
  split at doc
  · rename_i marks
    simp only [Bool.and_eq_true, Bool.not_eq_true', List.isPrefixOf_iff_prefix] at marks
    refine ⟨marks.1, fun more => ?_⟩
    exact Bool.false_ne_true (marks.2.symm.trans (List.isPrefixOf_iff_prefix.mpr more))
  · split at doc
    · cases doc
    · split at doc <;> cases doc

theorem trimStart_slash {more : List Char} (starts : cs <+: '/' :: more) : Blank.trimStart cs = cs := by
  cases cs with
  | nil => rfl
  | cons c behind =>
    rw [(List.cons_prefix_cons.mp starts).1]
    rfl

-- A comment that follows the lines and is none of them goes on with nothing.
theorem apart_of_rest (comment : IsComment (front ++ rest) r) (behind : front.length ≤ r.start)
    (ends : ¬OpensDoc rest) (doc : classify (textOf (front ++ rest) r) = .lineDoc) :
    front.length ≠ (r.extend (front ++ rest)).start := by
  intro meets
  have blanks := (extend_owns_within comment.within).indentation
  rw [← meets] at blanks
  have text : (front ++ rest).drop r.start = rest.drop (r.start - front.length) := by
    rw [List.drop_append, List.drop_eq_nil_of_le behind, List.nil_append]
  have starts : ∃ more, rest.drop (r.start - front.length) = '/' :: more := by
    rw [← text]
    rcases comment.marked with ⟨more, same⟩ | ⟨⟨more, same⟩, _⟩ <;> exact ⟨_, same.symm⟩
  obtain ⟨more, slash⟩ := starts
  have first : rest.dropWhile isIndent = '/' :: more := by
    have run := blanks_text (n := r.start - front.length) (by rwa [Nat.add_sub_cancel' behind])
    rw [List.drop_left] at run
    rw [← List.take_append_drop (r.start - front.length) rest, List.dropWhile_append_of_pos run, slash]
    rfl
  have shown : textOf (front ++ rest) r <+: '/' :: more := by
    rw [← slash, ← text]
    unfold textOf
    rw [List.drop_take]
    exact List.take_prefix _ _
  have trimmed : Blank.trimStart (textOf (front ++ rest) r) = textOf (front ++ rest) r := trimStart_slash shown
  obtain ⟨three, notFour⟩ := classify_lineDoc doc
  rw [trimmed] at three notFour
  unfold OpensDoc at ends
  rw [first] at ends
  rcases comment.marked with closed | ⟨_, line⟩
  · rw [text, slash] at closed
    obtain ⟨⟨_, other⟩, ⟨_, same⟩⟩ := And.intro closed (three.trans shown)
    rw [← other] at same
    cases same
  · refine ends ⟨three.trans shown, fun four => notFour ?_⟩
    obtain ⟨more', same⟩ := four
    rw [line, text, slash, ← same]
    exact ⟨_, rfl⟩

theorem places_stop {place : Nat} (listed : r ∈ places place lines) : r.stop < place + (block lines).length := by
  induction lines generalizing place with
  | nil => cases listed
  | cons l more ih =>
    have length : (block (l :: more)).length = l.written.length + (block more).length := List.length_append
    have own : l.written.length = l.indent.length + l.ink.length + l.ending.length := by
      simp only [written, List.length_append]
    have broken : 0 < l.ending.length := by
      unfold ending
      split <;> exact Nat.succ_pos _
    rcases List.mem_cons.mp listed with rfl | later
    · dsimp only
      omega
    · have := ih later
      omega

variable {g : Grammar}

theorem Grammar.ReadsHead.firstCode (reads : g.ReadsHead lines rest) :
    (block lines).length ≤ (g (block lines ++ rest)).firstCode (block lines ++ rest).length := by
  obtain ⟨heads, others, split, _, comments, behind⟩ := reads.children
  have none : heads.find? (fun t => decide (t.label ≠ .comment)) = none := by
    simpa using comments
  unfold Tree.firstCode
  rw [split, List.find?_append, none, Option.none_or]
  cases found : others.find? fun t => decide (t.label ≠ .comment) with
  | none =>
    rw [List.length_append]
    exact Nat.le_add_right _ _
  | some t => exact behind t (List.mem_of_find?_eq_some found)

-- Of the comments at the head the first are those of the lines.
theorem Grammar.ReadsHead.headComments (reads : g.ReadsHead lines rest) :
    ∃ others, (g (block lines ++ rest)).headComments (block lines ++ rest).length = places 0 lines ++ others ∧
      ∀ r ∈ others, (block lines).length ≤ r.start ∧ IsComment (block lines ++ rest) r := by
  have code := reads.firstCode
  have known := reads.comments
  obtain ⟨heads, others, split, at_, comments, behind⟩ := reads.children
  unfold Tree.headComments
  generalize (g (block lines ++ rest)).firstCode (block lines ++ rest).length = limit at code
  rw [split] at known ⊢
  refine ⟨(others.filter fun t => t.label = .comment && t.range.stop ≤ limit).map Tree.range, ?_, ?_⟩
  · have all : heads.filter (fun t => t.label = .comment && t.range.stop ≤ limit) = heads := by
      refine List.filter_eq_self.mpr fun t member => ?_
      have inside := places_stop (at_ ▸ List.mem_map_of_mem member)
      simp only [Bool.and_eq_true, decide_eq_true_eq]
      exact ⟨comments t member, by omega⟩
    rw [List.filter_append, all, List.map_append, at_]
  · intro r member
    obtain ⟨t, found, rfl⟩ := List.mem_map.mp member
    obtain ⟨listed, kind⟩ := List.mem_filter.mp found
    rw [Bool.and_eq_true, decide_eq_true_eq] at kind
    exact ⟨behind t listed, known t (List.mem_append_right _ listed) kind.1⟩

/-! ### The part that the lines are -/

theorem sorted_first {base : Span} {spans : List Span} (first : base.range.start = 0) :
    Span.sorted (base :: spans) = base :: Span.sorted spans := by
  have from_ (done : List Span) : spans.foldl (fun done s => s.insert done) (base :: done)
      = base :: spans.foldl (fun done s => s.insert done) done := by
    induction spans generalizing done with
    | nil => rfl
    | cons s more ih =>
      have stays : s.insert (base :: done) = base :: s.insert done := if_neg (by rw [first]; exact Nat.not_lt_zero _)
      rw [List.foldl_cons, stays, ih, List.foldl_cons]
  exact from_ []

theorem tiles_block (some : lines ≠ []) (reads : g.ReadsHead lines rest) (ends : ¬OpensDoc rest) :
    ∃ more, tiles (fun cs => (g cs).places cs.length) (block lines ++ rest)
      = ⟨⟨0, (block lines).length⟩, .lineDoc⟩ :: more := by
  obtain ⟨others, heads, behind⟩ := reads.headComments
  have merged := @commentSpansFrom_lines rest lines [] others
  have lone : opened lines = [] ++ [⟨⟨0, (block lines).length⟩, .lineDoc⟩] := by
    cases lines with
    | nil => exact absurd rfl some
    | cons l more => rfl
  obtain ⟨later, closed⟩ := @commentSpansFrom_closed (block lines ++ rest) ⟨⟨0, (block lines).length⟩, .lineDoc⟩ [] others
    fun r member => apart_of_rest (behind r member).2 (behind r member).1 ends
  change commentSpansFrom (block lines ++ rest) [] (places 0 lines ++ others)
    = commentSpansFrom (block lines ++ rest) (opened lines) others at merged
  unfold tiles spansOf Tree.places
  dsimp only
  rw [heads, merged, lone, closed, List.cons_append, sorted_first rfl, tilesFrom]
  exact ⟨_, rfl⟩

-- A text that starts with a byte order mark where it has one.
def marked (mark : Bool) (cs : List Char) : List Char := if mark then byteOrderMark :: cs else cs

theorem block_cons (some : lines ≠ []) : ∃ c more, block lines = c :: more ∧ c ≠ byteOrderMark := by
  cases lines with
  | nil => exact absurd rfl some
  | cons l lines =>
    have one : block (l :: lines) = l.indent ++ (l.ink ++ l.ending ++ block lines) := by
      unfold block
      rw [List.flatMap_cons]
      simp only [written, List.append_assoc]
    cases indent : l.indent with
    | nil =>
      rw [one, indent]
      exact ⟨'/', _, rfl, by decide⟩
    | cons c more =>
      rw [one, indent]
      refine ⟨c, _, rfl, ?_⟩
      rintro rfl
      have := l.indents byteOrderMark (indent ▸ List.mem_cons_self)
      cases this

theorem descriptorComments_first {text : String} {parts : List (Kind × String)} :
    ∃ n later, (Unit.ofParts ((.lineDoc, text) :: parts)).descriptorComments = n :: later ∧ n.text = text :=
  ⟨_, _, rfl, rfl⟩

theorem descriptorComments_marked {text : String} {parts : List (Kind × String)} :
    ∃ n later, (Unit.ofParts ((.code, String.ofList [byteOrderMark]) :: (.lineDoc, text) :: parts)).descriptorComments
      = n :: later ∧ n.text = text := by
  have skipped (nodes : List Node) :
      Unit.leadingFrom (⟨0, .code, String.ofList [byteOrderMark]⟩ :: nodes) = Unit.leadingFrom nodes := rfl
  unfold Unit.descriptorComments Unit.leading Unit.ofParts
  rw [List.zipIdx_cons, List.map_cons, skipped]
  exact ⟨_, _, rfl, rfl⟩

-- The lines are the first comment of a file that may hold a descriptor, whole and with nothing else.
theorem descriptorComments_block (mark : Bool) (some : lines ≠ []) (reads : g.ReadsHead lines rest)
    (ends : ¬OpensDoc rest) :
    ∃ n later, (Unit.parse g (String.ofList (marked mark (block lines ++ rest)))).descriptorComments = n :: later ∧
      n.text = String.ofList (block lines) := by
  obtain ⟨more, cut⟩ := tiles_block some reads ends
  have text : ((block lines ++ rest).take (block lines).length).drop 0 = block lines := List.take_left
  unfold Unit.parse Unit.ofRanges
  rw [String.toList_ofList]
  cases mark with
  | true =>
    have lay : layout (fun cs => (g cs).places cs.length) (marked true (block lines ++ rest))
        = ⟨⟨0, 1⟩, .code⟩ :: (tiles (fun cs => (g cs).places cs.length) (block lines ++ rest)).map fun s => s.shift 1 :=
      rfl
    have moved : textOf (marked true (block lines ++ rest)) ⟨0 + 1, (block lines).length + 1⟩ = block lines := text
    rw [lay, cut, List.map_cons, List.map_cons, List.map_cons]
    unfold part Span.shift
    dsimp only
    rw [moved]
    exact descriptorComments_marked
  | false =>
    have lay : layout (fun cs => (g cs).places cs.length) (marked false (block lines ++ rest))
        = tiles (fun cs => (g cs).places cs.length) (block lines ++ rest) := by
      obtain ⟨c, others, first, plain⟩ := block_cons some
      change layout _ (block lines ++ rest) = _
      rw [first, List.cons_append]
      unfold layout
      split
      · rename_i same
        exact absurd (List.cons.inj same).1 plain
      · rfl
    have whole : textOf (marked false (block lines ++ rest)) ⟨0, (block lines).length⟩ = block lines := text
    rw [lay, cut, List.map_cons]
    unfold part
    dsimp only
    rw [whole]
    exact descriptorComments_first

end InlineProject.Source
