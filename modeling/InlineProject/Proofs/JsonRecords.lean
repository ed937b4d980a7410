import InlineProject.Proofs.JsonTexts
/-!
Records of texts laid out over lines. What is written is read as the record that it was, with its fields in their
order; whatever is read has distinct names and settled texts.
-/

namespace InlineProject.Json

/-! ### Distinct names -/

section Names

variable {α : Type} {name : Text} {item : α} {entries : List (Text × α)} {fields : List (Text × Json)}

def names (entries : List (Text × α)) : List Text := entries.map (·.1)

-- An entry under a name that is there takes its place; any other comes last.
def setEntry (name : Text) (item : α) : List (Text × α) → List (Text × α)
  | [] => [(name, item)]
  | (other, old) :: rest =>
      if other = name then (name, item) :: rest else (other, old) :: setEntry name item rest

theorem putField_eq {value : Json} : putField name value fields = setEntry name value fields := by
  induction fields with
  | nil => rfl
  | cons field rest ih =>
    unfold putField setEntry
    rw [ih]

theorem setEntry_new (new : name ∉ names entries) :
    setEntry name item entries = entries ++ [(name, item)] := by
  induction entries with
  | nil => rfl
  | cons entry rest ih =>
    obtain ⟨key, old⟩ := entry
    have apart : key ≠ name := by
      rintro rfl
      exact new List.mem_cons_self
    unfold setEntry
    rw [if_neg apart, ih fun member => new (List.mem_cons_of_mem _ member)]
    rfl

theorem names_setEntry_there (there : name ∈ names entries) :
    names (setEntry name item entries) = names entries := by
  induction entries with
  | nil => cases there
  | cons entry rest ih =>
    obtain ⟨key, old⟩ := entry
    unfold setEntry
    by_cases same : key = name
    · subst same
      rw [if_pos rfl]
      rfl
    · rw [if_neg same]
      have later : name ∈ names rest := (List.mem_cons.mp there).resolve_left (Ne.symm same)
      exact congrArg (key :: ·) (ih later)

theorem setEntry_nodup (distinct : (names entries).Nodup) :
    (names (setEntry name item entries)).Nodup := by
  by_cases there : name ∈ names entries
  · rwa [names_setEntry_there there]
  · have split : names (entries ++ [(name, item)]) = names entries ++ [name] := List.map_append
    rw [setEntry_new there, split]
    refine List.nodup_append.mpr ⟨distinct, List.nodup_singleton _, ?_⟩
    rintro a inside b last rfl
    rw [List.mem_singleton.mp last] at inside
    exact there inside

theorem setEntry_mem {entry : Text × α} (member : entry ∈ setEntry name item entries) :
    entry = (name, item) ∨ entry ∈ entries := by
  induction entries with
  | nil => exact .inl (List.mem_singleton.mp member)
  | cons first rest ih =>
    obtain ⟨key, old⟩ := first
    unfold setEntry at member
    split at member
    · exact (List.mem_cons.mp member).imp_right (List.mem_cons_of_mem _)
    · rcases List.mem_cons.mp member with rfl | later
      · exact .inr List.mem_cons_self
      · exact (ih later).imp_right (List.mem_cons_of_mem _)

-- What holds of the empty record and is kept by putting a field holds of distinct fields.
theorem distinctFields_keeps {good : List (Text × Json) → Prop} (none : good [])
    (put : ∀ kept, ∀ field ∈ fields, good kept → good (putField field.1 field.2 kept)) :
    good (distinctFields fields) := by
  unfold distinctFields
  refine List.foldlRecOn fields _ none fun kept fine field member => ?_
  exact put kept field member fine

theorem distinctFields_nodup : (names (distinctFields fields)).Nodup := by
  refine @distinctFields_keeps fields (fun kept => (names kept).Nodup) .nil fun kept field _ distinct => ?_
  rw [putField_eq]
  exact setEntry_nodup distinct

-- Under distinct names an entry is found where it stands.
theorem find?_names (distinct : (names entries).Nodup) :
    (entries.find? fun entry => entry.1 = name).map (·.2) = some item ↔ (name, item) ∈ entries := by
  rw [Option.map_eq_some_iff]
  constructor
  · rintro ⟨⟨key, found⟩, searched, rfl⟩
    have same := List.find?_some searched
    rw [← of_decide_eq_true same]
    exact List.mem_of_find?_eq_some searched
  · intro member
    have there : (entries.find? fun entry => entry.1 = name).isSome = true :=
      List.find?_isSome.mpr ⟨_, member, decide_eq_true rfl⟩
    obtain ⟨entry, searched⟩ := Option.isSome_iff_exists.mp there
    have same := List.find?_some searched
    have equal : entry = (name, item) :=
      List.inj_on_of_nodup_map distinct (List.mem_of_find?_eq_some searched) member (of_decide_eq_true same)
    exact ⟨entry, searched, congrArg Prod.snd equal⟩

theorem distinctFields_mem : ∀ field ∈ distinctFields fields, field ∈ fields := by
  refine @distinctFields_keeps fields (fun kept => ∀ field ∈ kept, field ∈ fields) nofun ?_
  intro kept field member sub other put
  rw [putField_eq] at put
  rcases setEntry_mem put with rfl | old
  · exact member
  · exact sub other old

end Names

/-! ### The order of names -/

section Sorted

variable {α β : Type} {fields others : List (Text × α)}

end Sorted

/-! ### Reading what was written -/

theorem skipSpaces_blank {margin rest : List Char} (blank : ∀ c ∈ margin, isSpace c = true) :
    skipSpaces (margin ++ rest) = skipSpaces rest := List.dropWhile_append_of_pos blank

theorem skipSpaces_mark {c : Char} {rest : List Char} (mark : isSpace c = false) :
    skipSpaces (c :: rest) = c :: rest := by
  unfold skipSpaces
  rw [List.dropWhile_cons, if_neg (by rw [mark]; exact Bool.false_ne_true)]

-- Behind a value stands a comma or the end of a collection, or a new line begins.
def Ended (rest : List Char) : Prop := ∀ c ∈ rest.head?, c ∈ [',', '\n', ']', '\x7d']

-- A text means a value: it is read as the value, whatever comes behind.
structure Means (cs : List Char) (j : Json) : Prop where
  starts : ∃ c more, cs = c :: more ∧ isSpace c = false
  reads {fuel : Nat} {rest : List Char} (enough : cs.length ≤ fuel) (ended : Ended rest) :
    value fuel (cs ++ rest) = .ok (j, rest)

theorem Means.skip {cs rest : List Char} {j : Json} (means : Means cs j) :
    skipSpaces (cs ++ rest) = cs ++ rest := by
  obtain ⟨c, more, rfl, mark⟩ := means.starts
  exact skipSpaces_mark mark

theorem means_text {t : Text} : Means (quoted t) (.str (joined t)) := by
  refine ⟨⟨'\x22', _, rfl, rfl⟩, fun {fuel rest} enough _ => ?_⟩
  obtain ⟨fuel, rfl⟩ : ∃ less, fuel = less + 1 := ⟨fuel - 1, by
    unfold quoted at enough
    rw [List.cons_append, List.length_cons] at enough
    omega⟩
  have written : quoted t ++ rest = '\x22' :: (t.flatMap escapedPoint ++ '\x22' :: rest) := by
    unfold quoted
    rw [List.cons_append, List.cons_append, List.append_assoc]
    rfl
  rw [written, value, text_written]
  rfl

section Rows

variable {α : Type} {written : α → List Char} {meant : α → Json} {margin ending : List Char}

-- One field of a record on a line of its own.
def row (margin : List Char) (name : Text) (value : List Char) : List Char :=
  margin ++ quoted name ++ ':' :: ' ' :: value

-- The lines of all fields, with commas between them.
def rows (margin : List Char) (written : α → List Char) (fields : List (Text × α)) : List Char :=
  List.intercalate [','] (fields.map fun field => row margin field.1 (written field.2))

theorem rows_single {field : Text × α} :
    rows margin written [field] = row margin field.1 (written field.2) := List.intercalate_singleton

theorem rows_more {field next : Text × α} {others : List (Text × α)} :
    rows margin written (field :: next :: others)
      = row margin field.1 (written field.2) ++ ',' :: rows margin written (next :: others) := by
  unfold rows
  rw [List.map_cons, List.map_cons, List.intercalate_cons_cons, List.append_assoc]
  rfl

-- What a field of a record has to be to be read again.
def Legible (written : α → List Char) (meant : α → Json) (field : Text × α) : Prop :=
  Settled field.1 ∧ Means (written field.2) (meant field.2)

-- One field is read, and what comes behind it decides how it goes on.
theorem fields_row {fuel : Nat} {field : Text × α} {behind : List Char}
    (means : Means (written field.2) (meant field.2)) (ended : Ended behind)
    (enough : (written field.2).length ≤ fuel) :
    fields (fuel + 1) (quoted field.1 ++ ':' :: ' ' :: (written field.2 ++ behind))
      = (match skipSpaces behind with
        | '\x7d' :: rest => return ([(joined field.1, meant field.2)], rest)
        | ',' :: rest => do
            let (others, rest) ← fields fuel (skipSpaces rest)
            return ((joined field.1, meant field.2) :: others, rest)
        | _ => .error .malformed) := by
  have opened : quoted field.1 ++ ':' :: ' ' :: (written field.2 ++ behind)
      = '\x22' :: (field.1.flatMap escapedPoint
        ++ '\x22' :: (':' :: ' ' :: (written field.2 ++ behind))) := by
    unfold quoted
    rw [List.cons_append, List.cons_append, List.append_assoc]
    rfl
  have spaced : skipSpaces (' ' :: (written field.2 ++ behind)) = written field.2 ++ behind :=
    Eq.trans rfl means.skip
  rw [opened, fields, text_written]
  change (value fuel (skipSpaces (' ' :: (written field.2 ++ behind))) >>= fun first =>
    match skipSpaces first.2 with
    | '\x7d' :: rest => return ([(joined field.1, first.1)], rest)
    | ',' :: rest => do
        let (others, rest) ← fields fuel (skipSpaces rest)
        return ((joined field.1, first.1) :: others, rest)
    | _ => .error .malformed) = _
  rw [spaced, means.reads enough ended]
  rfl

theorem skip_row {name : Text} {value behind : List Char} (blank : ∀ c ∈ margin, isSpace c = true) :
    skipSpaces (row margin name value ++ behind)
      = quoted name ++ ':' :: ' ' :: (value ++ behind) := by
  unfold row
  rw [List.append_assoc, List.append_assoc, skipSpaces_blank blank]
  exact skipSpaces_mark rfl

theorem length_row {name : Text} {value : List Char} :
    value.length + 2 ≤ (row margin name value).length := by
  unfold row
  rw [List.length_append, List.length_cons, List.length_cons]
  omega

-- The induction is on the fields; a comma stands before every line but the first.
theorem fields_rows {fuel : Nat} {field : Text × α} {others : List (Text × α)} {rest : List Char}
    (blank : ∀ c ∈ margin, isSpace c = true) (closing : ∀ c ∈ ending, isSpace c = true)
    (ended : Ended (ending ++ '\x7d' :: rest)) (means : ∀ f ∈ field :: others, Means (written f.2) (meant f.2))
    (enough : (rows margin written (field :: others)).length ≤ fuel) :
    fields fuel (skipSpaces (rows margin written (field :: others) ++ (ending ++ '\x7d' :: rest)))
      = .ok ((field :: others).map fun f => (joined f.1, meant f.2), rest) := by
  have first := means field List.mem_cons_self
  have sized : (written field.2).length + 2 ≤ (row margin field.1 (written field.2)).length :=
    length_row
  induction others generalizing field fuel with
  | nil =>
    rw [rows_single] at enough ⊢
    obtain ⟨fuel, rfl⟩ : ∃ less, fuel = less + 1 := ⟨fuel - 1, by omega⟩
    rw [skip_row blank, fields_row first ended (by omega), skipSpaces_blank closing,
      skipSpaces_mark rfl]
    rfl
  | cons next others ih =>
    rw [rows_more] at enough ⊢
    rw [List.length_append, List.length_cons] at enough
    obtain ⟨fuel, rfl⟩ : ∃ less, fuel = less + 1 := ⟨fuel - 1, by omega⟩
    have remaining : ∀ f ∈ next :: others, Means (written f.2) (meant f.2) :=
      fun f member => means f (List.mem_cons_of_mem _ member)
    have later : fields fuel (skipSpaces (rows margin written (next :: others)
        ++ (ending ++ '\x7d' :: rest))) = .ok ((next :: others).map fun f => (joined f.1, meant f.2), rest) :=
      ih remaining (by omega) (remaining next List.mem_cons_self) length_row
    have between : Ended (',' :: (rows margin written (next :: others) ++ (ending ++ '\x7d' :: rest))) := by
      intro c front
      cases front
      decide
    rw [List.append_assoc, List.cons_append, skip_row blank, fields_row first between (by omega),
      skipSpaces_mark rfl]
    change (do
      let (others, rest) ← fields fuel (skipSpaces (rows margin written (next :: others)
        ++ (ending ++ '\x7d' :: rest)))
      return ((joined field.1, meant field.2) :: others, rest)) = _
    rw [later]
    rfl

end Rows

theorem value_record {fuel : Nat} {body rest : List Char} {pairs : List (Text × Json)}
    (opened : ∃ more, skipSpaces body = '\x22' :: more)
    (inner : fields fuel (skipSpaces body) = .ok (pairs, rest)) :
    value (fuel + 1) ('\x7b' :: body) = .ok (.obj (distinctFields pairs), rest) := by
  obtain ⟨more, front⟩ := opened
  rw [front] at inner
  rw [value, front]
  change (do
    let (pairs, rest) ← fields fuel ('\x22' :: more)
    return (Json.obj (distinctFields pairs), rest)) = _
  rw [inner]
  rfl

-- The value of a whole text.
theorem read_of_means {cs : List Char} {j : Json} (means : Means cs j) : read cs = .ok j := by
  have whole : cs ++ [] = cs := List.append_nil cs
  have front : skipSpaces cs = cs := by
    have skip : skipSpaces (cs ++ []) = cs ++ [] := means.skip
    rwa [whole] at skip
  have ended : Ended [] := nofun
  have reads : value (cs.length + 1) (cs ++ []) = .ok (j, []) := means.reads (Nat.le_succ _) ended
  unfold read
  rw [front, ← whole]
  rw [whole] at reads ⊢
  rw [reads]
  rfl

/-! ### What was read -/

-- Names are distinct and texts settled, all the way down.
inductive Orderly : Json → Prop where
  | null : Orderly .null
  | bool (b : Bool) : Orderly (.bool b)
  | int (i : Int) : Orderly (.int i)
  | real (x : Binary64) : Orderly (.real x)
  | str {t : Text} (settled : Settled t) : Orderly (.str t)
  | arr {items : List Json} (each : ∀ j ∈ items, Orderly j) : Orderly (.arr items)
  | obj {fields : List (Text × Json)} (distinct : (names fields).Nodup)
      (settled : ∀ field ∈ fields, Settled field.1) (each : ∀ field ∈ fields, Orderly field.2) :
      Orderly (.obj fields)

theorem bound_parts {α β : Type} {first : Except ReadError α} {f : α → Except ReadError β} {b : β}
    (read : (first >>= f) = .ok b) : ∃ a, first = .ok a ∧ f a = .ok b := by
  cases first with
  | error e => cases read
  | ok a => exact ⟨a, rfl, read⟩

theorem magnitude_orderly {negative : Bool} {cs rest : List Char} {j : Json}
    (read : magnitude negative cs = .ok (j, rest)) : Orderly j := by
  unfold magnitude at read
  extract_lets whole at read
  by_cases empty : whole.isEmpty = true
  · rw [if_pos empty] at read
    cases read
  · rw [if_neg empty] at read
    dsimp only at read
    split at read
    · split at read
      · cases read
        exact .int _
      · cases read
    · split at read
      · cases read
        exact .real _
      · cases read

theorem words_orderly : ∀ word ∈ words, Orderly word.2 := by
  intro word member
  simp only [words, List.mem_cons, List.not_mem_nil, or_false] at member
  rcases member with rfl | rfl | rfl | rfl | rfl | rfl
  · exact .null
  · exact .bool true
  · exact .bool false
  · exact .real _
  · exact .real _
  · exact .real _

theorem atom_orderly {cs rest : List Char} {j : Json} (read : atom cs = .ok (j, rest)) :
    Orderly j := by
  unfold atom at read
  split at read
  · rename_i word meaning found
    cases read
    exact words_orderly _ (List.mem_of_find?_eq_some found)
  · split at read
    · exact magnitude_orderly read
    · exact magnitude_orderly read

-- What each of the three readers gives, from what the others give with less fuel.
section Readers

variable {fuel : Nat} {cs rest : List Char}
  (single : ∀ {cs rest j}, value fuel cs = .ok (j, rest) → Orderly j)
  (many : ∀ {cs rest js}, items fuel cs = .ok (js, rest) → ∀ j ∈ js, Orderly j)
  (named : ∀ {cs rest pairs}, fields fuel cs = .ok (pairs, rest) → ∀ field ∈ pairs, Settled field.1 ∧ Orderly field.2)

include many named in
theorem value_orderly {j : Json} (read : value (fuel + 1) cs = .ok (j, rest)) : Orderly j := by
  unfold value at read
  split at read
  · obtain ⟨⟨t, behind⟩, inner, ended⟩ := bound_parts read
    cases ended
    exact .str (text_settled inner)
  · split at read
    · cases read
      exact .arr nofun
    · obtain ⟨⟨js, behind⟩, inner, ended⟩ := bound_parts read
      cases ended
      exact .arr (many inner)
  · split at read
    · cases read
      exact .obj .nil nofun nofun
    · obtain ⟨⟨pairs, behind⟩, inner, ended⟩ := bound_parts read
      cases ended
      have fine := named inner
      exact .obj distinctFields_nodup
        (fun field member => (fine field (distinctFields_mem field member)).1)
        (fun field member => (fine field (distinctFields_mem field member)).2)
  · exact atom_orderly read

include single many in
theorem items_orderly {js : List Json} (read : items (fuel + 1) cs = .ok (js, rest)) : ∀ j ∈ js, Orderly j := by
  unfold items at read
  obtain ⟨⟨first, behind⟩, inner, ended⟩ := bound_parts read
  have fine := single inner
  dsimp only at ended
  split at ended
  · cases ended
    exact List.forall_mem_singleton.mpr fine
  · obtain ⟨⟨others, last⟩, later, ended⟩ := bound_parts ended
    cases ended
    exact List.forall_mem_cons.mpr ⟨fine, many later⟩
  · cases ended

include single named in
theorem fields_orderly {pairs : List (Text × Json)} (read : fields (fuel + 1) cs = .ok (pairs, rest)) :
    ∀ field ∈ pairs, Settled field.1 ∧ Orderly field.2 := by
  unfold fields at read
  split at read
  · obtain ⟨⟨name, behind⟩, inner, ended⟩ := bound_parts read
    have settled := text_settled inner
    dsimp only at ended
    split at ended
    · obtain ⟨⟨first, behind⟩, inner, ended⟩ := bound_parts ended
      have fine := single inner
      dsimp only at ended
      split at ended
      · cases ended
        exact List.forall_mem_singleton.mpr ⟨settled, fine⟩
      · obtain ⟨⟨others, last⟩, later, ended⟩ := bound_parts ended
        cases ended
        exact List.forall_mem_cons.mpr ⟨⟨settled, fine⟩, named later⟩
      · cases ended
    · cases ended
  · cases read

end Readers

-- The induction is on the fuel that the three readers share.
theorem reads_orderly (fuel : Nat) :
    (∀ {cs rest j}, value fuel cs = .ok (j, rest) → Orderly j) ∧
    (∀ {cs rest js}, items fuel cs = .ok (js, rest) → ∀ j ∈ js, Orderly j) ∧
    (∀ {cs rest pairs}, fields fuel cs = .ok (pairs, rest) →
      ∀ field ∈ pairs, Settled field.1 ∧ Orderly field.2) := by
  induction fuel with
  | zero => exact ⟨nofun, nofun, nofun⟩
  | succ fuel ih =>
    obtain ⟨single, many, named⟩ := ih
    exact ⟨value_orderly many named, items_orderly single many, fields_orderly single named⟩

theorem read_orderly {cs : List Char} {j : Json} (read : Json.read cs = .ok j) : Orderly j := by
  unfold Json.read at read
  obtain ⟨⟨whole, rest⟩, inner, ended⟩ := bound_parts read
  dsimp only at ended
  split at ended
  · cases ended
    exact (reads_orderly _).1 inner
  · cases ended

theorem Orderly.field? {j meaning : Json} {name : String} (orderly : Orderly j)
    (found : j.field? name = some meaning) : Orderly meaning := by
  unfold Json.field? at found
  split at found
  · obtain ⟨field, searched, same⟩ := Option.map_eq_some_iff.mp found
    subst same
    cases orderly with
    | obj _ _ each => exact each field (List.mem_of_find?_eq_some searched)
  · cases found

theorem Orderly.text {t : Text} (orderly : Orderly (.str t)) : Settled t := by
  cases orderly with
  | str settled => exact settled

end InlineProject.Json
