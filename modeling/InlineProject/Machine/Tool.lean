import InlineProject.Disk.Basic
import InlineProject.Git.Call
import InlineProject.Text.Digit
/-!
Small programs that every machine has: they write what they are given, show files, name what a
directory holds, or just end well or badly.
-/

namespace InlineProject.Machine

abbrev Bytes := List UInt8

/-- What a program leaves behind. -/
structure Finished where
  output : Bytes
  complaint : Bytes
  status : Git.Status
deriving DecidableEq

/-- What a program finds when it starts. -/
structure Surroundings where
  disk : Disk
  directory : Path
  input : Bytes

def bytesOf (s : String) : Bytes := s.toUTF8.toList

namespace Finished

def good (output : Bytes) : Finished := ⟨output, [], .code 0⟩

def bad (code : Nat) (complaint : String) : Finished := ⟨[], bytesOf complaint, .code code⟩

end Finished

namespace Tool

/-! ### Escapes -/

def letterEscapes : List (Char × UInt8) := [
  ('a', 7), ('b', 8), ('e', 27), ('f', 12), ('n', 10), ('r', 13), ('t', 9), ('v', 11), ('\\', 92),
  ('\x22', 34)]

def isOctal (c : Char) : Bool := '0' ≤ c && c ≤ '7'

/-- The digits of a number at the start of a text, and what is behind them. -/
def digitRun (isDigit : Char → Bool) (limit : Nat) (cs : List Char) : List Char × List Char :=
  let digits := (cs.take limit).takeWhile isDigit
  (digits, cs.drop digits.length)

def byteOf (base : Nat) (digits : List Char) : UInt8 := UInt8.ofNat (Digit.natOf base digits)

/-- The byte that stands for the characters behind a backslash. -/
def escape? : List Char → Option (UInt8 × List Char)
  | [] => none
  | 'x' :: rest =>
      match digitRun Digit.isHex 2 rest with
      | ([], _) => none
      | (digits, rest) => some (byteOf 16 digits, rest)
  | c :: rest =>
      if isOctal c then
        let (digits, rest) := digitRun isOctal 3 (c :: rest)
        some (byteOf 8 digits, rest)
      else (letterEscapes.lookup c).map fun b => (b, rest)

-- `fuel` is the number of characters. The flag tells that nothing shall follow.
def unescapeFrom : Nat → List Char → Bytes × Bool
  | 0, _ => ([], false)
  | _ + 1, [] => ([], false)
  | _ + 1, '\\' :: 'c' :: _ => ([], true)
  | fuel + 1, '\\' :: rest =>
      let (first, rest) := match escape? rest with
        | some (b, rest) => (b, rest)
        | none => (92, rest)
      let (more, stop) := unescapeFrom fuel rest
      (first :: more, stop)
  | fuel + 1, c :: rest =>
      let (more, stop) := unescapeFrom fuel rest
      (bytesOf (String.singleton c) ++ more, stop)

def unescape (s : String) : Bytes × Bool := unescapeFrom s.length s.toList

/-! ### Writing by a format -/

structure Page where
  bytes : Bytes
  arguments : List String
  -- Whether the format has taken an argument.
  took : Bool
  stop : Bool
  fault : Option String

def Page.write (p : Page) (bs : Bytes) : Page := { p with bytes := p.bytes ++ bs }

/-- Writes the next argument as a directive says. -/
def directive (p : Page) (letter : Char) : Page :=
  let argument := p.arguments.head?.getD ""
  let p' := { p with arguments := p.arguments.tail, took := true }
  match letter with
  | 's' => p'.write (bytesOf argument)
  | 'b' =>
      let (bs, stop) := unescape argument
      { p'.write bs with stop := stop }
  | 'c' => p'.write ((bytesOf argument).take 1)
  | 'd' | 'i' =>
      if argument.isEmpty then p'.write (bytesOf "0")
      else
        match argument.toInt? with
        | some n => p'.write (bytesOf (toString n))
        | none =>
            { p'.write (bytesOf "0") with
              fault := some ("printf: " ++ Quoted.ofString argument
                ++ ": expected a numeric value\n") }
  | c =>
      { p with
        stop := true
        fault := some ("printf: %" ++ c.toString ++ ": invalid conversion specification\n") }

-- `fuel` is the number of characters.
def formatFrom : Nat → List Char → Page → Page
  | 0, _, p => p
  | _ + 1, [], p => p
  | fuel + 1, '%' :: '%' :: rest, p => formatFrom fuel rest (p.write (bytesOf "%"))
  | fuel + 1, '%' :: letter :: rest, p =>
      let p := directive p letter
      if p.stop then p else formatFrom fuel rest p
  | _ + 1, '\\' :: 'c' :: _, p => { p with stop := true }
  | fuel + 1, '\\' :: rest, p =>
      match escape? rest with
      | some (b, rest) => formatFrom fuel rest (p.write [b])
      | none => formatFrom fuel rest (p.write [92])
  | fuel + 1, c :: rest, p => formatFrom fuel rest (p.write (bytesOf (String.singleton c)))

-- The format starts again as long as it takes arguments and some are left.
def pagesFrom : Nat → List Char → Page → Page
  | 0, _, p => p
  | fuel + 1, format, p =>
      let p := formatFrom format.length format { p with took := false }
      if p.stop || !p.took || p.arguments.isEmpty then p else pagesFrom fuel format p

def printf : List String → Finished
  | [] =>
      .bad 1 "printf: missing operand\nTry 'printf --help' for more information.\n"
  | format :: arguments =>
      let p := pagesFrom (arguments.length + 1) format.toList ⟨[], arguments, false, false, none⟩
      match p.fault with
      | some message => ⟨p.bytes, bytesOf message, .code 1⟩
      | none => .good p.bytes

/-! ### The other tools -/

/-- Writes its arguments and a line feed; a script's own version reads escapes in them. -/
def echo (escapes : Bool) (arguments : List String) : Finished :=
  let (ending, arguments) := match arguments with
    | "-n" :: rest => ("", rest)
    | arguments => ("\n", arguments)
  let text := " ".intercalate arguments
  if escapes then
    let (bs, stop) := unescape text
    .good (if stop then bs else bs ++ bytesOf ending)
  else .good (bytesOf (text ++ ending))

def readFile (s : Surroundings) (name : String) : Except String Bytes :=
  match s.disk.locate (s.directory.join name) with
  | .ok place =>
      match s.disk.item? place with
      | some (.file content) => .ok content.toList
      | some .directory => .error FileCause.isDirectory.system.2
      | none => .error FileCause.notFound.system.2
  | .error cause => .error cause.system.2

/-- Shows files one after another, or else what comes in. -/
def cat (s : Surroundings) (names : List String) : Finished :=
  if names.isEmpty then .good s.input
  else
    names.foldl (fun done name =>
      if name = "-" then { done with output := done.output ++ s.input }
      else
        match readFile s name with
        | .ok bs => { done with output := done.output ++ bs }
        | .error reason =>
            { done with
              complaint := done.complaint ++ bytesOf ("cat: " ++ name ++ ": " ++ reason ++ "\n")
              status := .code 1 }) (.good [])

/-- The names in a directory, each on a line. -/
def list (s : Surroundings) (name : String) : Finished :=
  let refuse (reason : String) : Finished :=
    .bad 2 ("ls: cannot access " ++ Quoted.ofString name ++ ": " ++ reason ++ "\n")
  match s.disk.locate (s.directory.join name) with
  | .ok place =>
      match s.disk.item? place with
      | some (.file _) => .good (bytesOf (name ++ "\n"))
      | some .directory =>
          let names := ((s.disk.children place).map (·.1)).filter (!".".isPrefixOf ·)
          .good (bytesOf (String.join ((names.mergeSort (· ≤ ·)).map (· ++ "\n"))))
      | none => refuse FileCause.notFound.system.2
  | .error cause => refuse cause.system.2

/-- What a tool does; there is no other. -/
def run? (escapes : Bool) (s : Surroundings) (name : String) (arguments : List String) :
    Option Finished :=
  match name with
  | "true" => some (.good [])
  | "false" => some ⟨[], [], .code 1⟩
  | "echo" => some (echo escapes arguments)
  | "printf" => some (printf arguments)
  | "cat" => some (cat s arguments)
  | "ls" => some (list s (arguments.head?.getD Path.hereName))
  | "pwd" => some (.good (bytesOf (s.directory.toString ++ "\n")))
  | _ => none

end Tool
end InlineProject.Machine
