import InlineProject.Machine.Tool
/-!
Scripts: commands one after another, or one if another ended well or badly. Words hold parameters,
and what a command writes can be sent elsewhere or be handed to the next command.
-/

namespace InlineProject.Machine

namespace Script

/-! ### Words -/

inductive Piece where
  | text (s : List Char)
  -- A parameter that is not quoted falls apart at blanks.
  | parameter (name : String) (quoted : Bool)
deriving DecidableEq

inductive Token where
  | word (pieces : List Piece)
  | symbol (s : String)
deriving DecidableEq

/-- Symbols of the language; of two that fit, the longer one comes first. -/
def symbols : List String :=
  ["2>&1", "1>&2", "2>", ">&2", ">&1", "1>", "&&", "||", ">", ";", "|", "\n"]

def symbolAt? (cs : List Char) : Option (String × List Char) :=
  (symbols.find? fun s => s.toList.isPrefixOf cs).map fun s => (s, cs.drop s.length)

def isNameChar (c : Char) : Bool := c.isAlphanum || c = '_'

/-- The name of a parameter behind a dollar sign. -/
def parameterAt? : List Char → Option (String × List Char)
  | '{' :: rest =>
      match rest.dropWhile (· != '}') with
      | _ :: behind => some (String.ofList (rest.takeWhile (· != '}')), behind)
      | [] => none
  | c :: rest =>
      if c.isDigit || ['$', '?', '#', '@', '*'].contains c then some (String.singleton c, rest)
      else if isNameChar c then
        some (String.ofList ((c :: rest).takeWhile isNameChar), (c :: rest).dropWhile isNameChar)
      else none
  | [] => none

/-- The pieces between double quotes; `fuel` is the number of characters. -/
def quotedFrom : Nat → List Char → List Piece × List Char
  | 0, cs => ([], cs)
  | _ + 1, [] => ([], [])
  | fuel + 1, c :: rest =>
      if c = '\x22' then ([], rest)
      else if c = '$' then
        match parameterAt? rest with
        | some (name, rest) =>
            let (more, rest) := quotedFrom fuel rest
            (.parameter name true :: more, rest)
        | none =>
            let (more, rest) := quotedFrom fuel rest
            (.text ['$'] :: more, rest)
      else
        match c, rest with
        | '\\', d :: rest =>
            let shown := if ['\x22', '\\', '$'].contains d then [d] else ['\\', d]
            let (more, rest) := quotedFrom fuel rest
            (.text shown :: more, rest)
        | c, rest =>
            let (more, rest) := quotedFrom fuel rest
            (.text [c] :: more, rest)

/-- The pieces of one word; `fuel` is the number of characters. -/
def wordFrom : Nat → List Char → List Piece × List Char
  | 0, cs => ([], cs)
  | _ + 1, [] => ([], [])
  | fuel + 1, c :: rest =>
      if c = ' ' || c = '\t' || [';', '|', '&', '>', '\n'].contains c then ([], c :: rest)
      else if c = '\x27' then
        let (more, behind) := wordFrom fuel ((rest.dropWhile (· != '\x27')).drop 1)
        (.text (rest.takeWhile (· != '\x27')) :: more, behind)
      else if c = '\x22' then
        let (inner, rest) := quotedFrom fuel rest
        let (more, rest) := wordFrom fuel rest
        (.text [] :: inner ++ more, rest)
      else if c = '$' then
        match parameterAt? rest with
        | some (name, rest) =>
            let (more, rest) := wordFrom fuel rest
            (.parameter name false :: more, rest)
        | none =>
            let (more, rest) := wordFrom fuel rest
            (.text ['$'] :: more, rest)
      else
        match c, rest with
        | '\\', d :: rest =>
            let (more, rest) := wordFrom fuel rest
            (.text [d] :: more, rest)
        | c, rest =>
            let (more, rest) := wordFrom fuel rest
            (.text [c] :: more, rest)

/-- The tokens of a script; `fuel` is the number of characters. -/
def tokensFrom : Nat → List Char → List Token
  | 0, _ => []
  | _ + 1, [] => []
  | fuel + 1, c :: rest =>
      if c = ' ' || c = '\t' then tokensFrom fuel rest
      else
        match symbolAt? (c :: rest) with
        | some (s, rest) => .symbol s :: tokensFrom fuel rest
        | none =>
            let (pieces, behind) := wordFrom (rest.length + 1) (c :: rest)
            if pieces.isEmpty then tokensFrom fuel rest
            else .word pieces :: tokensFrom fuel behind

/-! ### Commands -/

/-- Where what a command writes goes; the next command takes it as what comes in. -/
inductive Sink where
  | output
  | complaint
  | nowhere
  | next
deriving DecidableEq

structure Command where
  words : List (List Piece)
  outputTo : Sink
  complaintTo : Sink
deriving DecidableEq

def Command.empty : Command := ⟨[], .output, .complaint⟩

/-- When a command is carried out: by how the one before ended, or together with it. -/
inductive Condition where
  | always
  | afterGood
  | afterBad
  | together
deriving DecidableEq

/-- A sink by the name of a file; all files but the one that takes nothing are left alone. -/
def Command.redirect (c : Command) (s : String) : Command :=
  match s with
  | "2>&1" => { c with complaintTo := c.outputTo }
  | ">&2" | "1>&2" => { c with outputTo := c.complaintTo }
  | ">" | "1>" => { c with outputTo := .nowhere }
  | "2>" => { c with complaintTo := .nowhere }
  | _ => c

/-- What has no other place to go is handed on. -/
def Command.handOn (c : Command) : Command :=
  let on (sink : Sink) : Sink := if sink = .output then .next else sink
  { c with outputTo := on c.outputTo, complaintTo := on c.complaintTo }

def conditionOf? : String → Option Condition
  | "|" => some .together
  | ";" | "\n" => some .always
  | "&&" => some .afterGood
  | "||" => some .afterBad
  | _ => none

def namesFile (s : String) : Bool := [">", "1>", "2>"].contains s

def commandsFrom (condition : Condition) (c : Command) : List Token → List (Condition × Command)
  | [] => [(condition, c)]
  | .word pieces :: rest => commandsFrom condition { c with words := c.words ++ [pieces] } rest
  | .symbol s :: rest =>
      match conditionOf? s with
      | some next =>
          (condition, if next = .together then c.handOn else c) :: commandsFrom next .empty rest
      | none =>
          commandsFrom condition (c.redirect s) (if namesFile s then rest.drop 1 else rest)
termination_by tokens => tokens.length
decreasing_by
  · simp
  · simp
  · split <;> simp only [List.length_drop, List.length_cons] <;> omega

/-- The commands of a script. -/
def commands (s : String) : List (Condition × Command) :=
  (commandsFrom .always .empty (tokensFrom s.length s.toList)).filter fun (_, c) =>
    c.words.any fun w => !w.isEmpty

end Script
end InlineProject.Machine
