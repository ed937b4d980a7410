import InlineProject.Calendar
import InlineProject.Number.Error
/-!
Why a document cannot be loaded. Most causes say that the text is no document of the language; the
last ones come from scalars whose tag promises more than their text keeps.
-/

namespace InlineProject.Yaml

inductive Error where
  -- The text holds a character that no document may hold.
  | unprintable (c : Char)
  -- No token can be read where one has to stand.
  | badToken
  -- The tokens do not follow the grammar.
  | badStructure
  -- An alias without its anchor, or an anchor given twice.
  | badAlias
  | unknownTag (tag : String)
  -- A tag on a node of another shape.
  | wrongShape
  -- What is merged into a mapping is no mapping.
  | badMerge
  -- A key that is a collection.
  | unhashableKey
  | badBase64
  | codePointTooLarge
  | codePointOverflow
  | number (e : NumberError)
  | emptyNumber
  | unknownWord
  | notTimestamp
  | timestampOfCollection
  | date (e : DateError)
deriving DecidableEq

/-- The causes that say no more than that the text is not of the language. -/
def Error.isMalformed : Error → Bool
  | .unprintable _ | .badToken | .badStructure | .badAlias | .unknownTag _ | .wrongShape
  | .badMerge | .unhashableKey | .badBase64 => true
  | _ => false

end InlineProject.Yaml
