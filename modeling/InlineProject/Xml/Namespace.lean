import InlineProject.Xml.Tree
/-!
Namespaces: which prefixes are bound where, which bindings are refused, and the prefixes that some
well-known namespaces are always written with.
-/

namespace InlineProject.Xml

-- The namespaces of the web consortium all begin alike.
def consortium (path : String) : String := "http:" ++ "//www.w3.org/" ++ path

def xmlSpace : String := consortium "XML/1998/namespace"
def xmlnsSpace : String := consortium "2000/xmlns/"

def wellKnown : List (String × String) :=
  [(xmlSpace, "xml"),
   (consortium "1999/xhtml", "html"),
   (consortium "1999/02/22-rdf-syntax-ns#", "rdf"),
   ("http:" ++ "//schemas.xmlsoap.org/wsdl/", "wsdl"),
   (consortium "2001/XMLSchema", "xs"),
   (consortium "2001/XMLSchema-instance", "xsi"),
   ("http:" ++ "//purl.org/dc/elements/1.1/", "dc")]

/-- A name as it is written: an optional prefix and a label. -/
structure WrittenName where
  mark : Option String
  label : String
deriving DecidableEq, Repr

/-- The namespaces in force, the latest binding first. The empty prefix is the default. -/
abbrev Scope := List (String × String)

def Scope.start : Scope := [("xml", xmlSpace)]

/-- Whether a prefix may be bound to a namespace: the reserved ones only to each other, no prefix
but the default to nothing, and none to a namespace with a closing brace. -/
def mayBind (mark uri : String) : Bool :=
  mark != "xmlns" && uri != xmlnsSpace && ((mark == "xml") == (uri == xmlSpace))
    && !(mark != "" && uri == "") && !uri.toList.contains '\x7d'

/-- The binding that an attribute makes, if it is one for namespaces. -/
def WrittenName.bound? (n : WrittenName) : Option String :=
  match n.mark with
  | some "xmlns" => some n.label
  | some _ => none
  | none => if n.label = "xmlns" then some "" else none

/-- The name of an element; without a prefix the default namespace holds. -/
def Scope.elementName? (s : Scope) (n : WrittenName) : Option Name :=
  match n.mark with
  | some mark => (s.lookup mark).map fun uri => ⟨some uri, n.label⟩
  | none =>
      match s.lookup "" with
      | none | some "" => some ⟨none, n.label⟩
      | some uri => some ⟨some uri, n.label⟩

/-- The name of an attribute; without a prefix it has no namespace. -/
def Scope.attributeName? (s : Scope) (n : WrittenName) : Option Name :=
  match n.mark with
  | some mark => (s.lookup mark).map fun uri => ⟨some uri, n.label⟩
  | none => some ⟨none, n.label⟩

end InlineProject.Xml
