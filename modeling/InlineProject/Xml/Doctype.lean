import InlineProject.Xml.Lexeme
/-!
The document type that may stand before the root: of it count the entities with a text of their own
and the default values of attributes.
-/

namespace InlineProject.Xml

inductive Entity where
  | internal (text : List Char)
  -- Kept elsewhere, or no text at all; a reference to it cannot be followed.
  | outside

structure AttributeDecl where
  element : WrittenName
  name : WrittenName
  -- Blanks in the value separate words only.
  tokens : Bool
  default : Option (List Char)

structure Doctype where
  entities : List (String × Entity)
  attributes : List AttributeDecl
  -- Declarations may be missing, so an unknown entity in a value is no fault.
  incomplete : Bool

def Doctype.empty : Doctype := ⟨[], [], false⟩

/-- The length of all entities, which bounds how deep references lead. -/
def Doctype.size (d : Doctype) : Nat :=
  d.entities.foldl (fun size (_, e) => match e with
    | .internal text => size + text.length + 1
    | .outside => size + 1) 0

/-! ### Values of attributes -/

-- `opened` holds the entities that are being expanded: none may refer to itself.
def attributeValue (d : Doctype) : Nat → List String → List Char → Option (List Char)
  | 0, _, _ => none
  | _ + 1, _, [] => some []
  | fuel + 1, opened, '&' :: rest => do
      let (reference, rest) ← reference? rest
      let value ← match reference with
        | .char c => some [c]
        | .entity name =>
            if opened.contains name then none
            else
              match d.entities.lookup name with
              | some (.internal text) => attributeValue d fuel (name :: opened) text
              | some .outside => none
              | none => if d.incomplete then some [] else none
      return value ++ (← attributeValue d fuel opened rest)
  | fuel + 1, opened, c :: rest =>
      if c = '<' then none
      else do
        let more ← attributeValue d fuel opened rest
        return (if isSpace c then ' ' else c) :: more

def expandAttribute (d : Doctype) (cs : List Char) : Option (List Char) :=
  attributeValue d (cs.length + d.size + 2) [] cs

/-- Words separated by one space each. -/
def collapse (cs : List Char) : List Char :=
  List.intercalate [' '] ((cs.splitOn ' ').filter (!·.isEmpty))

/-! ### Declarations -/

/-- Where an entity or the whole type is kept: a system name, or a public and a system name. -/
def externalId? (cs : List Char) : Option (List Char) :=
  match after? "SYSTEM" cs with
  | some rest => do
      let (_, rest) ← quoted? (← spaces? rest)
      return rest
  | none => do
      let (_, rest) ← quoted? (← spaces? (← after? "PUBLIC" cs))
      let (_, rest) ← quoted? (← spaces? rest)
      return rest

-- References to characters are replaced at once, those to entities only where the entity is used.
def entityValue : Nat → List Char → Option (List Char)
  | 0, _ => none
  | _ + 1, [] => some []
  | fuel + 1, '&' :: rest => do
      let (reference, after) ← reference? rest
      let text := match reference, rest with
        | .char c, '#' :: _ => [c]
        | _, _ => '&' :: rest.take (rest.length - after.length)
      return text ++ (← entityValue fuel after)
  | fuel + 1, c :: rest =>
      if c = '%' then none
      else do
        let more ← entityValue fuel rest
        return c :: more

def entityBody? (cs : List Char) : Option (Entity × List Char) :=
  match quoted? cs with
  | some (raw, rest) => do
      let text ← entityValue (raw.length + 1) raw
      return (.internal text, rest)
  | none => do
      let rest ← externalId? cs
      match after? "NDATA" (skipSpaces rest) with
      | some rest => do
          let (_, rest) ← simpleName? (← spaces? rest)
          return (.outside, rest)
      | none => return (.outside, rest)

def close? (cs : List Char) : Option (List Char) := after? ">" (skipSpaces cs)

/-- A declaration of an entity behind its word. Those for declarations themselves are passed. -/
def entityDecl? (d : Doctype) (cs : List Char) : Option (Doctype × List Char) := do
  let rest ← spaces? cs
  match rest with
  | '%' :: rest => do
      let (_, rest) ← simpleName? (← spaces? rest)
      let (_, rest) ← entityBody? (← spaces? rest)
      return (d, ← close? rest)
  | rest => do
      let (name, rest) ← simpleName? rest
      let (entity, rest) ← entityBody? (← spaces? rest)
      let rest ← close? rest
      -- The first declaration of an entity counts.
      return ({ d with entities := d.entities ++ [(name, entity)] }, rest)

/-- The type of an attribute: whether its value is made of words. -/
def attributeType? (cs : List Char) : Option (Bool × List Char) :=
  match cs with
  | '(' :: rest => (until? [')'] rest).map fun (_, rest) => (true, rest)
  | cs => do
      let (word, rest) ← simpleName? cs
      if word = "CDATA" then return (false, rest)
      else if word = "NOTATION" then do
        let rest ← after? "(" (← spaces? rest)
        let (_, rest) ← until? [')'] rest
        return (true, rest)
      else if ["ID", "IDREF", "IDREFS", "ENTITY", "ENTITIES", "NMTOKEN", "NMTOKENS"].contains word then
        return (true, rest)
      else none

def attributeDefault? (d : Doctype) (cs : List Char) : Option (Option (List Char) × List Char) :=
  match after? "#REQUIRED" cs <|> after? "#IMPLIED" cs with
  | some rest => some (none, rest)
  | none => do
      let cs ← match after? "#FIXED" cs with
        | some rest => spaces? rest
        | none => some cs
      let (raw, rest) ← quoted? cs
      return (some (← expandAttribute d raw), rest)

def attributeDecls? (element : WrittenName) : Nat → Doctype → List Char →
    Option (Doctype × List Char)
  | 0, _, _ => none
  | fuel + 1, d, cs =>
      match close? cs with
      | some rest => some (d, rest)
      | none => do
          let (name, rest) ← name? (← spaces? cs)
          let (tokens, rest) ← attributeType? (← spaces? rest)
          let (value, rest) ← attributeDefault? d (← spaces? rest)
          let value := if tokens then value.map collapse else value
          let decl : AttributeDecl := ⟨element, name, tokens, value⟩
          let known := d.attributes.any fun a => a.element = element && a.name = name
          let d := if known then d else { d with attributes := d.attributes ++ [decl] }
          attributeDecls? element fuel d rest

def attlist? (d : Doctype) (cs : List Char) : Option (Doctype × List Char) := do
  let (element, rest) ← name? (← spaces? cs)
  attributeDecls? element (rest.length + 1) d rest

-- Any other declaration ends at the first angle bracket that is not in quotes.
def skipDecl? : Nat → List Char → Option (List Char)
  | 0, _ => none
  | _ + 1, [] => none
  | fuel + 1, c :: rest =>
      if c = '>' then some rest
      else if c = '\x22' || c = '\x27' then do
        let (_, rest) ← until? [c] rest
        skipDecl? fuel rest
      else if c = '<' then none
      else skipDecl? fuel rest

def otherDecl? (d : Doctype) (cs : List Char) : Option (Doctype × List Char) := do
  let (_, rest) ← name? (← spaces? cs)
  return (d, ← skipDecl? (rest.length + 1) rest)

/-- The declarations between brackets. Behind a reference to declarations kept elsewhere nothing
counts any more. -/
def subset? : Nat → Doctype → List Char → Option (Doctype × List Char)
  | 0, _, _ => none
  | fuel + 1, d, cs =>
      match skipSpaces cs with
      | ']' :: rest => some (d, rest)
      | '%' :: rest => do
          let (_, rest) ← simpleName? rest
          let rest ← after? ";" rest
          let (_, rest) ← subset? fuel d rest
          return ({ d with incomplete := true }, rest)
      | cs =>
          match after? "<!--" cs, after? "<?" cs, after? "<!ENTITY" cs, after? "<!ATTLIST" cs with
          | some rest, _, _, _ => do
              let (_, rest) ← comment? rest
              subset? fuel d rest
          | _, some rest, _, _ => do
              let rest ← instruction? rest
              subset? fuel d rest
          | _, _, some rest, _ => do
              let (d, rest) ← entityDecl? d rest
              subset? fuel d rest
          | _, _, _, some rest => do
              let (d, rest) ← attlist? d rest
              subset? fuel d rest
          | _, _, _, _ => do
              let rest ← after? "<!ELEMENT" cs <|> after? "<!NOTATION" cs
              let (d, rest) ← otherDecl? d rest
              subset? fuel d rest

/-- A document type behind its opening. -/
def doctype? (cs : List Char) : Option (Doctype × List Char) := do
  let (_, rest) ← name? (← spaces? cs)
  let external := (spaces? rest).bind externalId?
  let d : Doctype := { Doctype.empty with incomplete := external.isSome }
  let rest := skipSpaces (external.getD rest)
  match rest with
  | '[' :: rest => do
      let (d, rest) ← subset? (rest.length + 1) d rest
      return (d, ← close? rest)
  | rest => do
      return (d, ← close? rest)

end InlineProject.Xml
