import InlineProject.Text.Lines
import InlineProject.Xml.Doctype
/-!
From text to tree. A document has one root; names have to be bound to namespaces, attributes must
not repeat, and every reference must lead to a text that is well formed by itself.
-/

namespace InlineProject.Xml

/-- What the content of an element is made of. -/
inductive Piece where
  | text (cs : List Char)
  | node (n : Node)

/-- Text before the first node is the text of the element, text behind a node is its tail. -/
def assemble : List Piece → List Char × List Node
  | [] => ([], [])
  | .text cs :: rest =>
      let (text, nodes) := assemble rest
      (cs ++ text, nodes)
  | .node n :: rest =>
      let (text, nodes) := assemble rest
      ([], n.withTail (String.ofList text) :: nodes)

/-! ### Tags -/

structure Tag where
  name : WrittenName
  attributes : List (WrittenName × List Char)
  closed : Bool

-- The attributes behind the name of a tag, up to its end.
def attributes? (d : Doctype) : Nat → List Char → Option (List (WrittenName × List Char) × Bool × List Char)
  | 0, _ => none
  | fuel + 1, cs =>
      match after? "/>" (skipSpaces cs), after? ">" (skipSpaces cs) with
      | some rest, _ => some ([], true, rest)
      | _, some rest => some ([], false, rest)
      | none, none => do
          let (name, rest) ← name? (← spaces? cs)
          let rest ← after? "=" (skipSpaces rest)
          let (raw, rest) ← quoted? (skipSpaces rest)
          let value ← expandAttribute d raw
          let (more, closed, rest) ← attributes? d fuel rest
          return ((name, value) :: more, closed, rest)

def tag? (d : Doctype) (cs : List Char) : Option (Tag × List Char) := do
  let (name, rest) ← name? cs
  let (attributes, closed, rest) ← attributes? d (rest.length + 1) rest
  return (⟨name, attributes, closed⟩, rest)

def hasDuplicates {α : Type} [BEq α] : List α → Bool
  | [] => false
  | a :: rest => rest.contains a || hasDuplicates rest

/-- The attributes of a tag with what the document type says about them. -/
def declared (d : Doctype) (t : Tag) : List (WrittenName × List Char) :=
  let decls := d.attributes.filter fun a => a.element = t.name
  let given := t.attributes.map fun (name, value) =>
    if decls.any fun a => a.name = name && a.tokens then (name, collapse value) else (name, value)
  let defaults := decls.filterMap fun a =>
    if t.attributes.any fun (name, _) => name = a.name then none
    else a.default.map fun value => (a.name, value)
  given ++ defaults

/-- The scope inside of a tag. -/
def bindAll (s : Scope) : List (WrittenName × List Char) → Option Scope
  | [] => some s
  | (name, value) :: rest =>
      match name.bound? with
      | some mark =>
          let uri := String.ofList value
          if mayBind mark uri then bindAll ((mark, uri) :: s) rest else none
      | none => bindAll s rest

/-- The name, the attributes and the scope of an element. -/
def open? (d : Doctype) (s : Scope) (t : Tag) : Option (Name × List (Name × String) × Scope) := do
  if hasDuplicates (t.attributes.map (·.1)) then none
  else
    let attributes := declared d t
    let s ← bindAll s attributes
    let name ← s.elementName? t.name
    let attributes ← (attributes.filter fun (name, _) => name.bound?.isNone).mapM
      fun (name, value) => (s.attributeName? name).map fun name => (name, String.ofList value)
    if hasDuplicates (attributes.map (·.1)) then none else return (name, attributes, s)

/-! ### Content -/

def hasSectionEnd : List Char → Bool
  | [] => false
  | c :: rest => [']', ']', '>'].isPrefixOf (c :: rest) || hasSectionEnd rest

/-- Whether comments stay in the tree. -/
inductive Comments where
  | kept
  | dropped
deriving DecidableEq

mutual
-- The content up to an end tag or the end of the text. Every call reads a character or opens an
-- entity, and no entity is open twice.
def content? (keep : Comments) (d : Doctype) : Nat → Scope → List String → List Char →
    Option (List Piece × List Char)
  | 0, _, _, _ => none
  | fuel + 1, s, opened, cs =>
      match cs with
      | [] => some ([], [])
      | '<' :: '/' :: _ => some ([], cs)
      | '<' :: '!' :: '-' :: '-' :: rest => do
          let (text, rest) ← comment? rest
          let (pieces, rest) ← content? keep d fuel s opened rest
          -- The text of an entity may hold carriage returns, and in a comment they are line breaks.
          if keep = .kept then
            return (.node (.comment (String.ofList (Lines.unifyBreaks text)) "") :: pieces, rest)
          else return (pieces, rest)
      | '<' :: '!' :: rest => do
          let (text, rest) ← until? [']', ']', '>'] (← after? "[CDATA[" rest)
          let (pieces, rest) ← content? keep d fuel s opened rest
          return (.text text :: pieces, rest)
      | '<' :: '?' :: rest => do
          let rest ← instruction? rest
          content? keep d fuel s opened rest
      | '<' :: rest => do
          let (node, rest) ← element? keep d fuel s opened rest
          let (pieces, rest) ← content? keep d fuel s opened rest
          return (.node node :: pieces, rest)
      | '&' :: rest => do
          let (reference, rest) ← reference? rest
          let inner ← match reference with
            | .char c => some [Piece.text [c]]
            | .entity name =>
                if opened.contains name then none
                else
                  match d.entities.lookup name with
                  | some (.internal text) =>
                      match content? keep d fuel s (name :: opened) text with
                      | some (pieces, []) => some pieces
                      | _ => none
                  | _ => none
          let (pieces, rest) ← content? keep d fuel s opened rest
          return (inner ++ pieces, rest)
      | cs =>
          let text := cs.takeWhile fun c => c != '<' && c != '&'
          if hasSectionEnd text then none
          else do
            let (pieces, rest) ← content? keep d fuel s opened (cs.drop text.length)
            return (.text text :: pieces, rest)

-- An element behind its opening bracket.
def element? (keep : Comments) (d : Doctype) : Nat → Scope → List String → List Char →
    Option (Node × List Char)
  | 0, _, _, _ => none
  | fuel + 1, s, opened, cs => do
      let (tag, rest) ← tag? d cs
      let (name, attributes, s) ← open? d s tag
      if tag.closed then return (.element name attributes "" [] "", rest)
      else do
        let (pieces, rest) ← content? keep d fuel s opened rest
        let (ending, rest) ← name? (← after? "</" rest)
        let rest ← after? ">" (skipSpaces rest)
        let (text, children) := assemble pieces
        if ending = tag.name then
          return (.element name attributes (String.ofList text) children "", rest)
        else none
end

/-! ### Documents -/

-- Comments, instructions and spaces around the root.
def skipMisc : Nat → List Char → Option (List Char)
  | 0, cs => some cs
  | fuel + 1, cs =>
      let cs := skipSpaces cs
      match after? "<!--" cs, after? "<?" cs with
      | some rest, _ => do
          let (_, rest) ← comment? rest
          skipMisc fuel rest
      | _, some rest => do
          let rest ← instruction? rest
          skipMisc fuel rest
      | none, none => some cs

/-- What stands before the document type: the declaration, if there is one, and the miscellany. -/
def head? (cs : List Char) : Option (List Char) :=
  match after? "<?xml" cs with
  | some rest =>
      if (spaces? rest).isSome then (declaration? rest).map (·.2) else some cs
  | none => some cs

def prolog? (cs : List Char) : Option (Doctype × List Char) := do
  let rest ← skipMisc cs.length (← head? cs)
  match after? "<!DOCTYPE" rest with
  | some rest => do
      let (d, rest) ← doctype? rest
      return (d, ← skipMisc rest.length rest)
  | none => return (.empty, rest)

/-- The root of a document given as text; a byte order mark in front is passed. -/
def parse? (keep : Comments) (cs : List Char) : Option Node := do
  let cs := match cs with
    | '\uFEFF' :: rest => rest
    | cs => cs
  if !cs.all isAllowed then none
  else
    let cs := Lines.unifyBreaks cs
    let (d, rest) ← prolog? cs
    let rest ← after? "<" rest
    let (root, rest) ← element? keep d (rest.length + d.size + 2) .start [] rest
    let rest ← skipMisc rest.length rest
    if rest.isEmpty then return root else none

end InlineProject.Xml
