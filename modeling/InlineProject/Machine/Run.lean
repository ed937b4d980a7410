import InlineProject.Machine.Script
/-!
Running programs: the tools, and an interpreter of scripts. A script ends by its last command, by an
exit, or by a signal that it sends to itself.
-/

namespace InlineProject.Machine

/-- The state of a script. -/
structure Session where
  surroundings : Surroundings
  -- The name of the script and its arguments.
  arguments : List String
  output : Bytes
  complaint : Bytes
  -- How the last command ended.
  last : Nat
  ended : Option Git.Status

namespace Session

def ownNumber : String := "4711"

/-- The values of a parameter; only one of them has more than one. -/
def values (s : Session) (name : String) : List String :=
  match name with
  | "@" => s.arguments.drop 1
  | "*" => [" ".intercalate (s.arguments.drop 1)]
  | "#" => [toString (s.arguments.length - 1)]
  | "?" => [toString s.last]
  | "$" => [ownNumber]
  | name =>
      match name.toNat? with
      | some n => [s.arguments.getD n ""]
      | none => [""]

/-- Joins what follows directly onto the last field. -/
def glue : List String → List String → List String
  | done, [] => done
  | [], more => more.reverse
  | last :: done, first :: more => more.reverse ++ (last ++ first) :: done

def isBlankStart (cs : List Char) : Bool := cs.head?.any isBlank

-- `done` holds the fields so far, the last one first.
def fieldsFrom (s : Session) (done : List String) : List Script.Piece → List String
  | [] => done.reverse
  | .text cs :: rest => fieldsFrom s (glue done [String.ofList cs]) rest
  | .parameter name true :: rest => fieldsFrom s (glue done (s.values name)) rest
  | .parameter name false :: rest =>
      let fields := (s.values name).flatMap fun v => (Blank.words v.toList).map String.ofList
      fieldsFrom s (glue done fields) rest

def fields (s : Session) (words : List (List Script.Piece)) : List String :=
  words.flatMap (s.fieldsFrom [])

/-- Takes note of how a command ended, and of what it wrote where that is not sent elsewhere. -/
def absorb (s : Session) (c : Script.Command) (f : Finished) : Session :=
  let taken (sink : Script.Sink) : Bytes :=
    (if c.outputTo = sink then f.output else [])
      ++ (if c.complaintTo = sink then f.complaint else [])
  { s with
    surroundings := { s.surroundings with input := taken .next }
    output := s.output ++ taken .output
    complaint := s.complaint ++ taken .complaint
    last := match f.status with
      | .code n => n
      | .signal n => 128 + n }

/-- The number of a signal, given by number or by name. -/
def signalOf (s : String) : Nat :=
  let name := String.ofList (s.toList.dropWhile (· = '-'))
  match name.toNat? with
  | some n => n
  | none =>
      match Git.Status.signalNames.find? fun (_, full) => full = name || full = "SIG" ++ name with
      | some (n, _) => n
      | none => 15

/-- What only the interpreter itself can do. -/
def builtin? (s : Session) : List String → Option Session
  | ["exit"] => some { s with ended := some (.code s.last) }
  | "exit" :: n :: _ => some { s with ended := some (.code ((n.toNat?.getD 2) % 256)) }
  | ["kill", target] =>
      if target = ownNumber then some { s with ended := some (.signal 15) } else none
  | ["kill", signal, target] =>
      if target = ownNumber then some { s with ended := some (.signal (signalOf signal)) } else none
  | ["kill", "-s", signal, target] =>
      if target = ownNumber then some { s with ended := some (.signal (signalOf signal)) } else none
  | ":" :: _ => some { s with last := 0 }
  | ["cd", target] =>
      let p := (s.surroundings.directory.join target).resolve ⟨.root, []⟩
      match s.surroundings.disk.look p with
      | .ok (some .directory) =>
          some { s with surroundings := { s.surroundings with directory := p }, last := 0 }
      | _ =>
          some { s with
            complaint := s.complaint ++ bytesOf ("sh: 1: cd: can't cd to " ++ target ++ "\n")
            last := 2 }
  | _ => none

def holds (s : Session) : Script.Condition → Bool
  | .always | .together => true
  | .afterGood => s.last = 0
  | .afterBad => s.last ≠ 0

def notFound (name : String) : Finished := .bad 127 ("sh: 1: " ++ name ++ ": not found\n")

def finished (s : Session) : Finished := ⟨s.output, s.complaint, s.ended.getD (.code s.last)⟩

end Session

def interpreterNames : List String := ["sh", "dash"]

def toolDirectories : List String := ["/bin/", "/usr/bin/"]

/-- The name of a program without the directory that holds the tools. -/
def toolName (program : String) : String :=
  match toolDirectories.find? fun d => d.toList.isPrefixOf program.toList with
  | some d => String.ofList (program.toList.drop d.length)
  | none => program

mutual
/-- What a script leaves behind; `depth` bounds how far scripts can start each other. -/
def runScript : Nat → Session → List (Script.Condition × Script.Command) → Session
  | _, s, [] => s
  | depth, s, (condition, c) :: rest =>
      if s.ended.isSome then s
      else if !s.holds condition then
        have : (rest.dropWhile (·.1 = .together)).length ≤ rest.length :=
          (List.dropWhile_sublist _).length_le
        runScript depth s (rest.dropWhile (·.1 = .together))
      else
        let words := s.fields c.words
        match s.builtin? words with
        | some s => runScript depth s rest
        | none =>
            match words with
            | [] => runScript depth s rest
            | name :: arguments =>
                let f := (run? depth true s.surroundings name arguments).getD (Session.notFound name)
                runScript depth (s.absorb c f) rest
termination_by depth _ cs => (depth, cs.length + 1)

/-- What a program leaves behind, if there is such a program. -/
def run? : Nat → Bool → Surroundings → String → List String → Option Finished
  | depth, inScript, s, program, arguments =>
      let name := toolName program
      match depth, interpreterNames.contains name, arguments with
      | depth + 1, true, "-c" :: script :: arguments =>
          let own := if arguments.isEmpty then ["sh"] else arguments
          some (runScript depth ⟨s, own, [], [], 0, none⟩ (Script.commands script)).finished
      | _, _, arguments => Tool.run? inScript s name arguments
termination_by depth => (depth, 0)
end

end InlineProject.Machine
