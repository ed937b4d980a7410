import Mathlib
import InlineProject.Proofs.MarkupMarks
/-!
What is written is read as it was: names, values in quotes, the attributes of a tag, and texts with their
references.
-/

namespace InlineProject.Xml

variable {cs rest text : List Char} {c : Char} {marks : Marks} {s s' : Scope} {fuel : Nat}

/-! ### Names -/

-- A text behind a name that does not go on with it.
def Closes (rest : List Char) : Prop := ∀ c ∈ rest.head?, continuesName c = false ∧ c ≠ ':'

theorem Closes.cons (stops : continuesName c = false) (other : c ≠ ':') : Closes (c :: rest) := by
  rintro x ⟨⟩
  exact ⟨stops, other⟩

theorem simpleName?_label {name : String} (label : Label name)
    (ends : ∀ c ∈ rest.head?, continuesName c = false) :
    simpleName? (name.toList ++ rest) = some (name, rest) := by
  obtain ⟨c, more, split, starts⟩ := label.starts
  have run : (more ++ rest).takeWhile continuesName = more := by
    rw [List.takeWhile_append_of_pos fun x member =>
      label.continues x (split ▸ List.mem_cons_of_mem _ member)]
    cases rest with
    | nil => simp
    | cons x back => simp [ends x rfl]
  rw [split, List.cons_append, simpleName?, if_pos starts]
  dsimp only
  rw [run, List.drop_left, ← split, String.ofList_toList]

def WrittenName.chars (n : WrittenName) : List Char :=
  match n.mark with
  | none => n.label.toList
  | some mark => mark.toList ++ ':' :: n.label.toList

theorem name?_chars {n : WrittenName} (proper : n.Proper) (closes : Closes rest) :
    name? (n.chars ++ rest) = some (n, rest) := by
  obtain ⟨mark, label⟩ := n
  have stops : ∀ c ∈ rest.head?, continuesName c = false := fun c member => (closes c member).1
  cases mark with
  | none =>
    have first : simpleName? (label.toList ++ rest) = some (label, rest) :=
      simpleName?_label proper.label stops
    unfold name?
    rw [WrittenName.chars]
    dsimp only
    rw [first]
    dsimp only [Option.bind_eq_bind, Option.bind_some]
    split
    · exact absurd rfl (closes ':' rfl).2
    · rfl
  | some mark =>
    have first : simpleName? (mark.toList ++ (':' :: (label.toList ++ rest)))
        = some (mark, ':' :: (label.toList ++ rest)) := by
      refine simpleName?_label (proper.mark mark rfl) ?_
      rintro c ⟨⟩
      decide
    have second : simpleName? (label.toList ++ rest) = some (label, rest) :=
      simpleName?_label proper.label stops
    unfold name?
    rw [WrittenName.chars]
    dsimp only
    rw [List.append_assoc, List.cons_append, first]
    refine (congrArg (Option.bind · _) second).trans ?_
    rfl

theorem chars_starts {n : WrittenName} (proper : n.Proper) :
    ∃ c more, n.chars = c :: more ∧ startsName c = true := by
  obtain ⟨mark, label⟩ := n
  cases mark with
  | none => exact proper.label.starts
  | some mark =>
    obtain ⟨c, more, split, starts⟩ := (proper.mark mark rfl).starts
    refine ⟨c, more ++ ':' :: label.toList, ?_, starts⟩
    rw [WrittenName.chars]
    dsimp only
    rw [split]
    rfl

theorem chars_allowed {n : WrittenName} (proper : n.Proper) : Allowed n.chars := by
  obtain ⟨mark, label⟩ := n
  cases mark with
  | none => exact proper.label.allowed
  | some mark =>
    have colon : isAllowed ':' = true := by decide
    exact (proper.mark mark rfl).allowed.append (.cons colon proper.label.allowed)

/-! ### References -/

-- What stands for a character: the character itself, or a reference to it.
inductive Escape (plain : Char → Prop) (c : Char) : List Char → Prop where
  | plain (allowed : plain c) : Escape plain c [c]
  | reference {name : List Char} (read : ∀ rest, reference? (name ++ rest) = some (.char c, rest))
      (quiet : '\x22' ∉ name ∧ '\r' ∉ name) (allowed : Allowed name) : Escape plain c ('&' :: name)

theorem escapeText_escape (c : Char) : Escape (fun c => c ≠ '&' ∧ c ≠ '<' ∧ c ≠ '>') c (escapeText c) := by
  unfold escapeText
  split
  · exact .reference (fun _ => rfl) (by decide) (by decide)
  · exact .reference (fun _ => rfl) (by decide) (by decide)
  · exact .reference (fun _ => rfl) (by decide) (by decide)
  · rename_i amp less greater
    exact .plain ⟨amp, less, greater⟩

theorem escapeValue_escape (c : Char) :
    Escape (fun c => c ≠ '&' ∧ c ≠ '<' ∧ c ≠ '\x22' ∧ c ≠ '\r' ∧ c ≠ '\n' ∧ c ≠ '\t') c (escapeValue c) := by
  unfold escapeValue
  split
  · exact .reference (fun _ => rfl) (by decide) (by decide)
  · exact .reference (fun _ => rfl) (by decide) (by decide)
  · exact .reference (fun _ => rfl) (by decide) (by decide)
  · exact .reference (fun _ => rfl) (by decide) (by decide)
  · rename_i quote return_ feed tab
    have escape := escapeText_escape c
    generalize escapeText c = written at escape ⊢
    cases escape with
    | plain allowed => exact .plain ⟨allowed.1, allowed.2.1, quote, return_, feed, tab⟩
    | reference read quiet allowed => exact .reference read quiet allowed

/-! ### Values -/

theorem isSpace_of_bounds (high : 0x20 < c.toNat) : isSpace c = false := by
  have apart (d : Char) (low : d.toNat ≤ 0x20) : c ≠ d := by
    rintro rfl
    omega
  simp [isSpace, apart ' ' (by decide), apart '\t' (by decide), apart '\n' (by decide),
    apart '\r' (by decide)]

theorem startsName_notSpace (starts : startsName c = true) : isSpace c = false := by
  have := startsName_bounds starts
  exact isSpace_of_bounds (by omega)

theorem attributeValue_plain {d : Doctype} {opened : List String} (amp : c ≠ '&') (less : c ≠ '<')
    (spaced : isSpace c = true → c = ' ') :
    attributeValue d (fuel + 1) opened (c :: rest)
      = (attributeValue d fuel opened rest).map (c :: ·) := by
  have same : (if isSpace c then ' ' else c) = c := by
    split
    · exact (spaced ‹_›).symm
    · rfl
  rw [attributeValue]
  · rw [if_neg less, same]
    cases attributeValue d fuel opened rest <;> rfl
  · exact amp

theorem attributeValue_reference {d : Doctype} {opened : List String}
    (read : reference? cs = some (.char c, rest)) :
    attributeValue d (fuel + 1) opened ('&' :: cs)
      = (attributeValue d fuel opened rest).map (c :: ·) := by
  rw [attributeValue, read]
  dsimp only [Option.bind_eq_bind, Option.bind_some]
  cases attributeValue d fuel opened rest <;> rfl

theorem attributeValue_escaped {value : List Char} {opened : List String} {d : Doctype}
    (enough : (value.flatMap escapeValue).length < fuel) :
    attributeValue d fuel opened (value.flatMap escapeValue) = some value := by
  induction value generalizing fuel with
  | nil =>
    obtain ⟨fuel, rfl⟩ := Nat.exists_eq_add_of_lt enough
    rfl
  | cons c value ih =>
    have escape := escapeValue_escape c
    rw [List.flatMap_cons] at enough ⊢
    generalize escapeValue c = written at escape enough ⊢
    cases fuel with
    | zero => exact absurd enough (Nat.not_lt_zero _)
    | succ fuel =>
      cases escape with
      | plain allowed =>
        obtain ⟨amp, less, _, return_, feed, tab⟩ := allowed
        have shorter : (value.flatMap escapeValue).length < fuel := by
          simp only [List.length_append, List.length_singleton] at enough
          omega
        have spaced (space : isSpace c = true) : c = ' ' := by
          simpa [isSpace, return_, feed, tab] using space
        rw [List.singleton_append, attributeValue_plain amp less spaced, ih shorter]
        rfl
      | reference read _ _ =>
        have shorter : (value.flatMap escapeValue).length < fuel := by
          simp only [List.length_append, List.length_cons] at enough
          omega
        rw [List.cons_append, attributeValue_reference (read _), ih shorter]
        rfl

theorem expandAttribute_escaped {d : Doctype} (value : String) :
    expandAttribute d (escapedValue value) = some value.toList :=
  attributeValue_escaped (Nat.lt_add_of_pos_right (by omega : 0 < d.size + 2))

theorem escapedValue_quiet (value : String) :
    '\x22' ∉ escapedValue value ∧ '\r' ∉ escapedValue value := by
  have each (c : Char) : '\x22' ∉ escapeValue c ∧ '\r' ∉ escapeValue c := by
    have escape := escapeValue_escape c
    generalize escapeValue c = written at escape ⊢
    cases escape with
    | plain allowed =>
      obtain ⟨_, _, quote, return_, _⟩ := allowed
      exact ⟨by simpa using Ne.symm quote, by simpa using Ne.symm return_⟩
    | reference _ quiet _ => exact ⟨by simpa using quiet.1, by simpa using quiet.2⟩
  simp only [escapedValue, List.mem_flatMap, not_exists, not_and]
  exact ⟨fun c _ => (each c).1, fun c _ => (each c).2⟩

theorem until?_single {quote : Char} (quiet : quote ∉ cs) :
    until? [quote] (cs ++ quote :: rest) = some (cs, rest) := by
  induction cs with
  | nil => simp [until?, List.isPrefixOf]
  | cons c cs ih =>
    have other : c ≠ quote := fun same => quiet (same ▸ List.mem_cons_self)
    have begins : ¬[quote].isPrefixOf (c :: (cs ++ quote :: rest)) = true := by
      simpa [List.isPrefixOf] using Ne.symm other
    rw [List.cons_append, until?, if_neg begins, ih fun member => quiet (List.mem_cons_of_mem _ member)]
    rfl

theorem quoted?_escaped {value : String} :
    quoted? ('\x22' :: (escapedValue value ++ '\x22' :: rest)) = some (escapedValue value, rest) := by
  rw [quoted?, if_pos (by decide)]
  exact until?_single (escapedValue_quiet _).1

/-! ### Tags -/

def ending (closed : Bool) : List Char := if closed then [' ', '/', '>'] else ['>']

def writtenAttributes (given : List (WrittenName × String)) : List Char :=
  given.flatMap fun a => attributeText a.1.chars a.2

theorem skipSpaces_starts (starts : startsName c = true) : skipSpaces (c :: rest) = c :: rest := by
  rw [skipSpaces, List.dropWhile_cons_of_neg (by simp [startsName_notSpace starts])]

theorem after?_none (start : String) {first : Char} {more : List Char} (split : start.toList = first :: more)
    (other : first ≠ c) : after? start (c :: rest) = none := by
  rw [after?, split, if_neg]
  simp [List.isPrefixOf, other]

theorem attributeText_append {name : List Char} {value : String} :
    attributeText name value ++ rest
      = ' ' :: (name ++ '=' :: '\x22' :: (escapedValue value ++ '\x22' :: rest)) := by
  simp [attributeText]

theorem attributes?_step {d : Doctype} {name : WrittenName} {value : String} (valid : name.Proper) :
    attributes? d (fuel + 1) (attributeText name.chars value ++ rest)
      = (attributes? d fuel rest).map fun found => ((name, value.toList) :: found.1, found.2) := by
  obtain ⟨c, more, split, starts⟩ := chars_starts valid
  have bounds := startsName_bounds starts
  have apart (x : Char) (low : x.toNat < 0x41) : x ≠ c := by
    rintro rfl
    omega
  rw [attributeText_append]
  generalize behind : '=' :: '\x22' :: (escapedValue value ++ '\x22' :: rest) = back
  have skipped : skipSpaces (' ' :: (name.chars ++ back)) = name.chars ++ back := by
    have blank : skipSpaces (' ' :: (name.chars ++ back)) = skipSpaces (name.chars ++ back) := rfl
    rw [blank, split, List.cons_append, skipSpaces_starts starts]
  have slash : after? "/>" (name.chars ++ back) = none := by
    rw [split]
    exact after?_none "/>" rfl (apart '/' (by decide))
  have angle : after? ">" (name.chars ++ back) = none := by
    rw [split]
    exact after?_none ">" rfl (apart '>' (by decide))
  have apart : spaces? (' ' :: (name.chars ++ back)) = some (name.chars ++ back) := by
    have blank : spaces? (' ' :: (name.chars ++ back)) = some (skipSpaces (name.chars ++ back)) := rfl
    rw [blank, split, List.cons_append, skipSpaces_starts starts]
  have named : name? (name.chars ++ back) = some (name, back) := by
    rw [← behind]
    exact name?_chars valid (.cons (by decide) (by decide))
  rw [attributes?, skipped, slash, angle]
  dsimp only
  rw [apart]
  dsimp only [Option.bind_eq_bind, Option.bind_some]
  rw [named]
  dsimp only [Option.bind_some]
  have equal : after? "=" (skipSpaces back)
      = some ('\x22' :: (escapedValue value ++ '\x22' :: rest)) := by
    rw [← behind]
    rfl
  have quote : quoted? (skipSpaces ('\x22' :: (escapedValue value ++ '\x22' :: rest)))
      = some (escapedValue value, rest) := quoted?_escaped
  rw [equal]
  dsimp only [Option.bind_some]
  rw [quote]
  dsimp only [Option.bind_some]
  rw [expandAttribute_escaped]
  dsimp only [Option.bind_some]
  cases attributes? d fuel rest <;> rfl

theorem attributes?_written {d : Doctype} {given : List (WrittenName × String)} {closed : Bool}
    (proper : ∀ a ∈ given, a.1.Proper)
    (enough : (writtenAttributes given ++ (ending closed ++ rest)).length < fuel) :
    attributes? d fuel (writtenAttributes given ++ (ending closed ++ rest))
      = some (given.map fun a => (a.1, a.2.toList), closed, rest) := by
  induction given generalizing fuel with
  | nil =>
    obtain ⟨fuel, rfl⟩ := Nat.exists_eq_add_of_lt enough
    cases closed <;> rfl
  | cons a given ih =>
    cases fuel with
    | zero => exact absurd enough (Nat.not_lt_zero _)
    | succ fuel =>
      have split : writtenAttributes (a :: given) ++ (ending closed ++ rest)
          = attributeText a.1.chars a.2 ++ (writtenAttributes given ++ (ending closed ++ rest)) := by
        rw [writtenAttributes, List.flatMap_cons, List.append_assoc]
        rfl
      have shorter : (writtenAttributes given ++ (ending closed ++ rest)).length < fuel := by
        rw [split, attributeText_append] at enough
        simp only [List.length_cons, List.length_append] at enough ⊢
        omega
      rw [split, attributes?_step (proper a List.mem_cons_self),
        ih (fun b member => proper b (List.mem_cons_of_mem _ member)) shorter]
      rfl

theorem tag?_written {d : Doctype} {name : WrittenName} {given : List (WrittenName × String)}
    {closed : Bool} (named : name.Proper) (proper : ∀ a ∈ given, a.1.Proper) :
    tag? d (name.chars ++ (writtenAttributes given ++ (ending closed ++ rest)))
      = some (⟨name, given.map fun a => (a.1, a.2.toList), closed⟩, rest) := by
  have closes : Closes (writtenAttributes given ++ (ending closed ++ rest)) := by
    cases given with
    | nil => cases closed <;> exact .cons (by decide) (by decide)
    | cons a given =>
      rw [writtenAttributes, List.flatMap_cons, List.append_assoc, attributeText_append]
      exact .cons (by decide) (by decide)
  unfold tag?
  rw [name?_chars named closes]
  dsimp only [Option.bind_eq_bind, Option.bind_some]
  rw [attributes?_written proper (Nat.lt_add_one _)]
  rfl

end InlineProject.Xml
