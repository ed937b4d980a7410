import InlineProject.Source.Tree
import InlineProject.Text.Utf8
/-!
Cutting a text by places in its bytes. A grammar tells places by bytes, so lines are looked for among
bytes too, and every part is read back as a text of its own; a part that begins or ends inside of a
character would be none.
-/

namespace InlineProject

namespace Utf8

/-- The text of bytes that have one. -/
def textOrNothing (bytes : List UInt8) : List Char :=
  match decode ⟨bytes.toArray⟩ with
  | .ok s => s.toList
  | .error _ => []

-- The fuel is the number of bytes: a fault takes one of them at least.
def mendFrom : Nat → List UInt8 → List Char
  | 0, _ => []
  | fuel + 1, bytes =>
      match decode ⟨bytes.toArray⟩ with
      | .ok s => s.toList
      | .error f =>
          textOrNothing (bytes.take f.start) ++ '\uFFFD' :: mendFrom fuel (bytes.drop f.stop)

/-- The text of some bytes, with a replacement character in the place of every fault. -/
def mend (bytes : List UInt8) : List Char := mendFrom bytes.length bytes

end Utf8

namespace Source.Octets

abbrev Bytes := List UInt8

def bytesOf (cs : List Char) : Bytes := (String.ofList cs).toUTF8.data.toList

def isIndent (b : UInt8) : Bool := b == 0x20 || b == 0x09

def startsLine : Bytes → Bool
  | [] => true
  | b :: _ => b == 0x0A

/-- How long the line break is that some bytes begin with; where there are none the last line ends. -/
def breakLength? : Bytes → Option Nat
  | 0x0D :: 0x0A :: _ => some 2
  | 0x0A :: _ => some 1
  | [] => some 0
  | _ => none

/-- Grows a range over the blanks around it, and over its indentation and line break if nothing else
stands on its lines. -/
def extend (bytes : Bytes) (r : Range) : Range :=
  let before := (bytes.take r.start).reverse
  let indent := (before.takeWhile isIndent).length
  let behind := bytes.drop r.stop
  let stop := r.stop + (behind.takeWhile isIndent).length
  if startsLine (before.drop indent) then
    match breakLength? (behind.dropWhile isIndent) with
    | some length => ⟨r.start - indent, stop + length⟩
    | none => ⟨r.start, stop⟩
  else ⟨r.start, stop⟩

def slice (bytes : Bytes) (r : Range) : Bytes := (bytes.take r.stop).drop r.start

/-- The span of a comment. Its kind is told whether its bytes are a text or not. -/
def commentSpan (bytes : Bytes) (r : Range) : Span :=
  ⟨extend bytes r, classify (Utf8.mend (slice bytes r))⟩

-- `done` holds the spans so far in reverse. Documentation lines that follow each other are one.
def mergeFrom (spanAt : Range → Span) (done : List Span) : List Range → List Span
  | [] => done.reverse
  | r :: rest =>
      let next := spanAt r
      match done with
      | last :: before =>
          if next.kind = .lineDoc && last.kind = next.kind && last.range.stop = next.range.start then
            mergeFrom spanAt (⟨⟨last.range.start, next.range.stop⟩, next.kind⟩ :: before) rest
          else mergeFrom spanAt (next :: done) rest
      | [] => mergeFrom spanAt [next] rest

/-- The spans of comments and directives in the order of their starts. -/
def spansOf (bytes : Bytes) (comments usings : List Range) : List Span :=
  Span.sorted (mergeFrom (commentSpan bytes) [] comments
    ++ usings.map fun r => Span.mk (extend bytes r) .using)

def part (bytes : Bytes) (s : Span) : Except Utf8.Failure (Kind × String) :=
  (Utf8.decode ⟨(slice bytes s.range).toArray⟩).map fun text => (s.kind, text)

/-- The parts of some bytes with comments and directives at given places. -/
def parts (places : List Range × List Range) (bytes : Bytes) :
    Except Utf8.Failure (List (Kind × String)) :=
  (tilesFrom bytes.length 0 (spansOf bytes places.1 places.2)).mapM (part bytes)

/-- What a grammar makes of the bytes of a text. -/
abbrev Grammar := Bytes → Tree

/-- The comments at the head of some bytes and their directives. -/
def placesIn (g : Grammar) (bytes : Bytes) : List Range × List Range :=
  (g bytes).places bytes.length

/-- The parts of a text by a grammar. A byte order mark is a part of its own, which the grammar is not
shown. -/
def parse (g : Grammar) (text : String) : Except Utf8.Failure Unit :=
  match text.toList with
  | '\uFEFF' :: rest =>
      (parts (placesIn g (bytesOf rest)) (bytesOf rest)).map fun found =>
        .ofParts ((.code, String.ofList [byteOrderMark]) :: found)
  | cs => (parts (placesIn g (bytesOf cs)) (bytesOf cs)).map .ofParts

end Source.Octets
end InlineProject
