import InlineProject.Descriptor.Attribute
import InlineProject.Descriptor.Project
import InlineProject.Json.Parser
import InlineProject.Yaml.Plain
/-!
The text of a descriptor becomes the markup of a project. It may be such markup already, or a
document that describes the project; what is neither gives a project by default, and an empty
document none at all.
-/

namespace InlineProject

structure Normalizer where
  defaultXml : String
  mode : MarkMode

namespace Normalizer

/-- What a descriptor turns out to be. -/
inductive Reading where
  | markup (xml : String)
  | empty
  | converted (xml : String)
  -- For the others the default stands in.
  | unreadable (cause : Yaml.Error)
  | unserializable (message : String)
  | unconvertible
deriving DecidableEq

def Reading.xml (n : Normalizer) : Reading → String
  | .markup xml => xml
  | .empty => ""
  | .converted xml => xml
  | .unreadable _ | .unserializable _ | .unconvertible => n.defaultXml

/-- What is noted about a reading. -/
def Reading.note? : Reading → Option String
  | .markup _ => some "Descriptor is project XML"
  | .empty => some "Descriptor is empty"
  | .converted _ => none
  | .unreadable _ => some "Descriptor is neither XML nor YAML"
  | .unserializable message => some ("Descriptor could not be serialized: " ++ message)
  | .unconvertible => some "Descriptor could not be converted to XML; using default"

/-- The plain data with the attributes marked, by way of its text where the mode says so. -/
def exchange (n : Normalizer) (plain : Json) : Except String Json :=
  match n.mode with
  | .structured => .ok (Attribute.exchange plain)
  | .text =>
      match plain.render with
      | .error e => .error e.message
      | .ok text =>
          match Json.read (Attribute.exchangeText text) with
          | .ok j => .ok j
          | .error (.number e) => .error e.message
          | .error .malformed => .error "Expecting value"

def isEmptyTop : Yaml.Value → Bool
  | .datum .null => true
  | .datum (.text []) => true
  | _ => false

/-- A descriptor that is no project markup. Scalars that do not keep what their tag promises are
not caught. -/
def readDocument (n : Normalizer) (cs : List Char) : Except Yaml.Error Reading :=
  match Yaml.load cs with
  | .error e => if e.isMalformed then .ok (.unreadable e) else .error e
  | .ok loaded =>
      if isEmptyTop loaded.top then .ok .empty
      else
        match loaded.toJson with
        | .error e => .ok (.unserializable e.message)
        | .ok plain =>
            match n.exchange plain with
            | .error message => .ok (.unserializable message)
            | .ok data =>
                match Project.ofJson data with
                | .error e => .ok (.unserializable e.message)
                | .ok none => .ok .unconvertible
                | .ok (some xml) => .ok (.converted (String.ofList xml))

def read (n : Normalizer) (cs : List Char) : Except Yaml.Error Reading :=
  match Project.ofMarkup? cs with
  | some root => .ok (.markup (String.ofList root.canonical))
  | none => n.readDocument cs

def documentToXml (n : Normalizer) (s : String) : Except Yaml.Error String :=
  (n.readDocument s.toList).map (Reading.xml n)

/-- The markup of the project that a descriptor stands for; empty if there is none. -/
def normalize (n : Normalizer) (s : String) : Except Yaml.Error String :=
  (n.read s.toList).map (Reading.xml n)

end Normalizer
end InlineProject
