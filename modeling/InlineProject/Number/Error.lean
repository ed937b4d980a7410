import InlineProject.Text.Quoted
/-!
Why a text is no number, or a number has no text.
-/

namespace InlineProject

inductive NumberError where
  | notInteger (base : Nat) (text : Text)
  | notReal (text : Text)
  | tooManyDigits (count : Nat)
  | textTooLong
  | tooLargeForReal
deriving DecidableEq

namespace NumberError

/-- Integers are read and written in decimal up to this many digits. -/
def digitLimit : Nat := 4300

def digitAdvice : String :=
  "; use sys.set_int_max_str_digits() to increase the limit"

-- A text that is no integer is quoted up to two hundred characters.
def message : NumberError → String
  | .notInteger base text =>
      "invalid literal for int() with base " ++ toString base ++ ": "
        ++ String.ofList ((Quoted.ofText text).take 200)
  | .notReal text =>
      "could not convert string to float: " ++ String.ofList (Quoted.ofText text)
  | .tooManyDigits count =>
      "Exceeds the limit (" ++ toString digitLimit ++ " digits) for integer string conversion: value has "
        ++ toString count ++ " digits" ++ digitAdvice
  | .textTooLong =>
      "Exceeds the limit (" ++ toString digitLimit ++ " digits) for integer string conversion" ++ digitAdvice
  | .tooLargeForReal => "int too large to convert to float"

end NumberError
end InlineProject
