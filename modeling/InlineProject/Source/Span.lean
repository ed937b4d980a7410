import InlineProject.Source.Unit
/-!
From places in a text to its parts. A comment or directive that has its lines to itself owns their
indentation and line break, so that it can be taken out without leaving anything behind. Whatever
the places are, the parts make up the text.
-/

namespace InlineProject.Source

structure Range where
  start : Nat
  stop : Nat
deriving DecidableEq, Repr

structure Span where
  range : Range
  kind : Kind
deriving DecidableEq, Repr

def isIndent (c : Char) : Bool := c == ' ' || c == '\t'

def startsLine : List Char → Bool
  | [] => true
  | c :: _ => c == '\n'

/-- Grows a range over the blanks around it, and over its indentation and line break if nothing else
stands on its lines. -/
def Range.extend (cs : List Char) (r : Range) : Range :=
  let before := (cs.take r.start).reverse
  let indent := (before.takeWhile isIndent).length
  let behind := cs.drop r.stop
  let stop := r.stop + (behind.takeWhile isIndent).length
  if startsLine (before.drop indent) then
    match behind.dropWhile isIndent with
    | '\r' :: '\n' :: _ => ⟨r.start - indent, stop + 2⟩
    | '\n' :: _ => ⟨r.start - indent, stop + 1⟩
    | [] => ⟨r.start - indent, stop⟩
    | _ => ⟨r.start, stop⟩
  else ⟨r.start, stop⟩

def textOf (cs : List Char) (r : Range) : List Char := (cs.take r.stop).drop r.start

-- `done` holds the spans so far in reverse. Documentation lines that follow each other are one.
def commentSpansFrom (cs : List Char) (done : List Span) : List Range → List Span
  | [] => done.reverse
  | r :: rest =>
      let kind := classify (textOf cs r)
      let range := r.extend cs
      match done with
      | last :: before =>
          if kind = .lineDoc && last.kind = kind && last.range.stop = range.start then
            commentSpansFrom cs (⟨⟨last.range.start, range.stop⟩, kind⟩ :: before) rest
          else commentSpansFrom cs (⟨range, kind⟩ :: done) rest
      | [] => commentSpansFrom cs [⟨range, kind⟩] rest

-- A span comes behind all those that start no later.
def Span.insert (s : Span) : List Span → List Span
  | [] => [s]
  | other :: rest =>
      if s.range.start < other.range.start then s :: other :: rest else other :: s.insert rest

/-- Spans in the order of their starts; those with one start stay in their order. -/
def Span.sorted (spans : List Span) : List Span := spans.foldl (fun done s => s.insert done) []

/-- The spans of comments and directives in the order of their starts. -/
def spansOf (cs : List Char) (comments usings : List Range) : List Span :=
  Span.sorted (commentSpansFrom cs [] comments ++ usings.map fun r => Span.mk (r.extend cs) .using)

/-- Cuts a text of some length at spans, from a place on. What lies between them is code; a span
that starts before that place is passed over. -/
def tilesFrom (length cursor : Nat) : List Span → List Span
  | [] => if cursor < length then [⟨⟨cursor, length⟩, .code⟩] else []
  | s :: rest =>
      if s.range.start < cursor then tilesFrom length cursor rest
      else
        let own := s :: tilesFrom length s.range.stop rest
        if cursor < s.range.start then ⟨⟨cursor, s.range.start⟩, .code⟩ :: own else own

/-- The spans that make up a text with comments and directives at given places. -/
def tiles (ranges : List Char → List Range × List Range) (cs : List Char) : List Span :=
  tilesFrom cs.length 0 (spansOf cs (ranges cs).1 (ranges cs).2)

def Span.shift (s : Span) (k : Nat) : Span := ⟨⟨s.range.start + k, s.range.stop + k⟩, s.kind⟩

/-- The spans of a whole file. A byte order mark is one of its own, so that the first line starts
behind it. -/
def layout (ranges : List Char → List Range × List Range) : List Char → List Span
  | '\uFEFF' :: rest => ⟨⟨0, 1⟩, .code⟩ :: (tiles ranges rest).map fun s => s.shift 1
  | cs => tiles ranges cs

def part (cs : List Char) (s : Span) : Kind × String := (s.kind, String.ofList (textOf cs s.range))

/-- A text in parts. -/
def Unit.ofRanges (cs : List Char) (ranges : List Char → List Range × List Range) : Unit :=
  .ofParts ((layout ranges cs).map (part cs))

end InlineProject.Source
