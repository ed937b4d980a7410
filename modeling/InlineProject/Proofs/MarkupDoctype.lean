import Mathlib
import InlineProject.Proofs.MarkupReaders
import InlineProject.Xml.Doctype
/-!
What a document type keeps: the texts of its entities and the default values of its attributes are made of
allowed characters, and the names of its attributes are names.
-/

namespace InlineProject.Xml

variable {cs rest text : List Char} {d d' : Doctype} {name : WrittenName}

structure Entity.Proper (e : Entity) : Prop where
  allowed : ∀ text, e = .internal text → Allowed text

theorem Entity.Proper.outside : Entity.Proper .outside := ⟨fun _ impossible => nomatch impossible⟩

structure AttributeDecl.Proper (a : AttributeDecl) : Prop where
  name : a.name.Proper
  default : ∀ value, a.default = some value → Allowed value

structure Doctype.Proper (d : Doctype) : Prop where
  entities : ∀ e ∈ d.entities, e.2.Proper
  attributes : ∀ a ∈ d.attributes, a.Proper

theorem Doctype.Proper.empty : Doctype.empty.Proper :=
  ⟨fun _ member => absurd member List.not_mem_nil, fun _ member => absurd member List.not_mem_nil⟩

theorem Doctype.Proper.entity (proper : d.Proper) {name : String}
    (found : d.entities.lookup name = some (.internal text)) : Allowed text := by
  exact (proper.entities _ (lookup_mem found)).allowed text rfl

theorem Doctype.Proper.withEntity (proper : d.Proper) {name : String} {e : Entity} (new : e.Proper) :
    Doctype.Proper { d with entities := d.entities ++ [(name, e)] } := by
  refine ⟨fun entry member => ?_, proper.attributes⟩
  rcases List.mem_append.mp member with old | last
  · exact proper.entities entry old
  · rw [List.mem_singleton.mp last]
    exact new

theorem Doctype.Proper.withAttribute (proper : d.Proper) {a : AttributeDecl} (new : a.Proper) :
    Doctype.Proper { d with attributes := d.attributes ++ [a] } := by
  refine ⟨proper.entities, fun decl member => ?_⟩
  rcases List.mem_append.mp member with old | last
  · exact proper.attributes decl old
  · rw [List.mem_singleton.mp last]
    exact new

theorem Doctype.Proper.incomplete (proper : d.Proper) {b : Bool} :
    Doctype.Proper { d with incomplete := b } := ⟨proper.entities, proper.attributes⟩

/-! ### Values -/

theorem attributeValue_allowed (proper : d.Proper) {fuel : Nat} {opened : List String}
    {value : List Char} (allowed : Allowed cs) (read : attributeValue d fuel opened cs = some value) :
    Allowed value := by
  induction fuel generalizing opened cs value with
  | zero => cases read
  | succ fuel ih =>
    unfold attributeValue at read
    split at read
    · cases read
    · cases read
      exact .nil
    · rename_i opened _ _ _ _ more same
      obtain rfl := Nat.succ.inj same
      obtain ⟨⟨reference, behind⟩, found, read⟩ := Option.bind_eq_some_iff.mp read
      obtain ⟨valid, ends⟩ := reference?_parts found
      have further : Allowed behind := (allowed.suffix (List.suffix_cons _ _)).suffix ends
      -- Whatever the reference stands for, the rest of the value is read behind it.
      have joined {first : List Char} (front : Allowed first)
          (read : ((attributeValue d fuel opened behind).bind fun second => pure (first ++ second))
            = some value) : Allowed value := by
        obtain ⟨second, follows, read⟩ := Option.bind_eq_some_iff.mp read
        cases read
        exact front.append (ih further follows)
      cases reference with
      | char c => exact joined (.cons valid .nil) read
      | entity name =>
        dsimp only at read
        split at read
        · cases read
        · split at read
          · rename_i inner known
            obtain ⟨first, meant, read⟩ := Option.bind_eq_some_iff.mp read
            exact joined (ih (proper.entity known) meant) read
          · cases read
          · split at read
            · exact joined .nil read
            · cases read
    · rename_i c more _ same
      obtain rfl := Nat.succ.inj same
      obtain ⟨_, read⟩ := Option.ite_none_left_eq_some.mp read
      obtain ⟨follows, done, read⟩ := Option.bind_eq_some_iff.mp read
      cases read
      refine .cons ?_ (ih (allowed.suffix (List.suffix_cons _ _)) done)
      split
      · decide
      · exact allowed c List.mem_cons_self

theorem expandAttribute_allowed (proper : d.Proper) {value : List Char} (allowed : Allowed cs)
    (read : expandAttribute d cs = some value) : Allowed value :=
  attributeValue_allowed proper allowed read

theorem intersperse_cons {sep word next : List Char} {more : List (List Char)} :
    List.intersperse sep (word :: next :: more) = word :: sep :: List.intersperse sep (next :: more) :=
  rfl

theorem mem_intersperse {sep word : List Char} {words : List (List Char)}
    (member : word ∈ List.intersperse sep words) : word = sep ∨ word ∈ words := by
  induction words with
  | nil => cases member
  | cons first more ih =>
    cases more with
    | nil => exact .inr member
    | cons next more =>
      rw [intersperse_cons] at member
      rcases List.mem_cons.mp member with rfl | member
      · exact .inr List.mem_cons_self
      · rcases List.mem_cons.mp member with rfl | member
        · exact .inl rfl
        · exact (ih member).imp_right (List.mem_cons_of_mem _)

theorem subset_intersperse {sep : List Char} {words : List (List Char)} :
    words ⊆ List.intersperse sep words := by
  induction words with
  | nil => exact List.Subset.refl _
  | cons first more ih =>
    cases more with
    | nil => exact List.Subset.refl _
    | cons next more =>
      rw [intersperse_cons]
      exact List.cons_subset_cons _ (List.subset_cons_of_subset _ ih)

theorem collapse_allowed (allowed : Allowed cs) : Allowed (collapse cs) := by
  intro c member
  obtain ⟨word, among, inside⟩ := List.mem_flatten.mp member
  rcases mem_intersperse among with rfl | kept
  · rw [List.mem_singleton.mp inside]
    decide
  · have whole : List.intercalate [' '] (cs.splitOn ' ') = cs := List.intercalate_splitOn ' '
    refine allowed c (whole ▸ ?_)
    exact List.mem_flatten.mpr ⟨word, subset_intersperse (List.mem_filter.mp kept).1, inside⟩

theorem entityValue_allowed {fuel : Nat} {value : List Char} (allowed : Allowed cs)
    (read : entityValue fuel cs = some value) : Allowed value := by
  induction fuel generalizing cs value with
  | zero => cases read
  | succ fuel ih =>
    unfold entityValue at read
    split at read
    · cases read
    · cases read
      exact .nil
    · rename_i more same
      obtain rfl := Nat.succ.inj same
      obtain ⟨⟨reference, behind⟩, found, read⟩ := Option.bind_eq_some_iff.mp read
      obtain ⟨valid, ends⟩ := reference?_parts found
      obtain ⟨follows, done, read⟩ := Option.bind_eq_some_iff.mp read
      cases read
      have moreAllowed : Allowed more := allowed.suffix (List.suffix_cons _ _)
      refine Allowed.append ?_ (ih (moreAllowed.suffix ends) done)
      split
      · exact .cons valid .nil
      · exact .cons (by decide) (moreAllowed.subset (List.take_subset _ _))
    · rename_i c more _ same
      obtain rfl := Nat.succ.inj same
      obtain ⟨_, read⟩ := Option.ite_none_left_eq_some.mp read
      obtain ⟨follows, done, read⟩ := Option.bind_eq_some_iff.mp read
      cases read
      exact .cons (allowed c List.mem_cons_self) (ih (allowed.suffix (List.suffix_cons _ _)) done)

/-! ### Declarations -/

theorem eitherAfter?_suffix {one other : String} (read : (after? one cs <|> after? other cs) = some rest) :
    rest <:+ cs := by
  cases first : after? one cs with
  | some _ =>
    rw [first] at read
    cases read
    exact after?_suffix first
  | none =>
    rw [first] at read
    exact after?_suffix read

theorem externalId?_suffix (read : externalId? cs = some rest) : rest <:+ cs := by
  unfold externalId? at read
  split at read
  · rename_i named
    obtain ⟨_, apart, read⟩ := Option.bind_eq_some_iff.mp read
    obtain ⟨⟨_, behind⟩, quoted, read⟩ := Option.bind_eq_some_iff.mp read
    cases read
    exact ((quoted?_parts quoted).2.trans (spaces?_suffix apart)).trans (after?_suffix named)
  · obtain ⟨_, named, read⟩ := Option.bind_eq_some_iff.mp read
    obtain ⟨_, apart, read⟩ := Option.bind_eq_some_iff.mp read
    obtain ⟨⟨_, behind⟩, quoted, read⟩ := Option.bind_eq_some_iff.mp read
    obtain ⟨_, apart', read⟩ := Option.bind_eq_some_iff.mp read
    obtain ⟨⟨_, behind'⟩, quoted', read⟩ := Option.bind_eq_some_iff.mp read
    cases read
    calc rest <:+ _ := (quoted?_parts quoted').2
      _ <:+ _ := spaces?_suffix apart'
      _ <:+ _ := (quoted?_parts quoted).2
      _ <:+ _ := spaces?_suffix apart
      _ <:+ cs := after?_suffix named

theorem entityBody?_parts {e : Entity} (allowed : Allowed cs)
    (read : entityBody? cs = some (e, rest)) : e.Proper ∧ rest <:+ cs := by
  unfold entityBody? at read
  split at read
  · rename_i raw behind quoted
    obtain ⟨value, done, read⟩ := Option.bind_eq_some_iff.mp read
    cases read
    obtain ⟨inside, ends⟩ := quoted?_parts quoted
    refine ⟨⟨?_⟩, ends⟩
    rintro _ ⟨⟩
    exact entityValue_allowed (inside allowed) done
  · obtain ⟨behind, kept, read⟩ := Option.bind_eq_some_iff.mp read
    have ends := externalId?_suffix kept
    dsimp only at read
    split at read
    · rename_i unparsed
      obtain ⟨_, apart, read⟩ := Option.bind_eq_some_iff.mp read
      obtain ⟨⟨_, behind'⟩, named, read⟩ := Option.bind_eq_some_iff.mp read
      cases read
      refine ⟨.outside, ?_⟩
      calc behind' <:+ _ := (simpleName?_parts named).2
        _ <:+ _ := spaces?_suffix apart
        _ <:+ _ := after?_suffix unparsed
        _ <:+ _ := skipSpaces_suffix
        _ <:+ cs := ends
    · cases read
      exact ⟨.outside, ends⟩

theorem close?_suffix (read : close? cs = some rest) : rest <:+ cs :=
  (after?_suffix read).trans skipSpaces_suffix

theorem entityDecl?_parts (proper : d.Proper) (allowed : Allowed cs)
    (read : entityDecl? d cs = some (d', rest)) : d'.Proper ∧ rest <:+ cs := by
  unfold entityDecl? at read
  obtain ⟨inner, apart, read⟩ := Option.bind_eq_some_iff.mp read
  have ends := spaces?_suffix apart
  dsimp only at read
  split at read
  · obtain ⟨_, apart', read⟩ := Option.bind_eq_some_iff.mp read
    obtain ⟨⟨_, behind⟩, named, read⟩ := Option.bind_eq_some_iff.mp read
    obtain ⟨_, apart'', read⟩ := Option.bind_eq_some_iff.mp read
    obtain ⟨⟨_, behind'⟩, body, read⟩ := Option.bind_eq_some_iff.mp read
    obtain ⟨_, closed, read⟩ := Option.bind_eq_some_iff.mp read
    cases read
    have toBody := ((spaces?_suffix apart'').trans (simpleName?_parts named).2).trans
      (((spaces?_suffix apart').trans (List.suffix_cons _ _)).trans ends)
    exact ⟨proper, ((close?_suffix closed).trans
      (entityBody?_parts (allowed.suffix toBody) body).2).trans toBody⟩
  · obtain ⟨⟨_, behind⟩, named, read⟩ := Option.bind_eq_some_iff.mp read
    obtain ⟨_, apart', read⟩ := Option.bind_eq_some_iff.mp read
    obtain ⟨⟨e, behind'⟩, body, read⟩ := Option.bind_eq_some_iff.mp read
    obtain ⟨_, closed, read⟩ := Option.bind_eq_some_iff.mp read
    cases read
    have toBody := ((spaces?_suffix apart').trans (simpleName?_parts named).2).trans ends
    obtain ⟨new, ends'⟩ := entityBody?_parts (allowed.suffix toBody) body
    exact ⟨proper.withEntity new, ((close?_suffix closed).trans ends').trans toBody⟩

theorem attributeType?_suffix {tokens : Bool} (read : attributeType? cs = some (tokens, rest)) :
    rest <:+ cs := by
  unfold attributeType? at read
  split at read
  · obtain ⟨⟨_, behind⟩, ended, joined⟩ := Option.map_eq_some_iff.mp read
    cases joined
    exact (until?_suffix ended).trans (List.suffix_cons _ _)
  · obtain ⟨⟨word, behind⟩, named, read⟩ := Option.bind_eq_some_iff.mp read
    have ends := (simpleName?_parts named).2
    dsimp only at read
    split at read
    · cases read
      exact ends
    · split at read
      · obtain ⟨_, apart, read⟩ := Option.bind_eq_some_iff.mp read
        obtain ⟨_, opening, read⟩ := Option.bind_eq_some_iff.mp read
        obtain ⟨⟨_, behind'⟩, ended, read⟩ := Option.bind_eq_some_iff.mp read
        cases read
        exact (((until?_suffix ended).trans (after?_suffix opening)).trans
          (spaces?_suffix apart)).trans ends
      · split at read
        · cases read
          exact ends
        · cases read

theorem attributeDefault?_parts (proper : d.Proper) (allowed : Allowed cs)
    {value : Option (List Char)} (read : attributeDefault? d cs = some (value, rest)) :
    (∀ text, value = some text → Allowed text) ∧ rest <:+ cs := by
  unfold attributeDefault? at read
  split at read
  · rename_i behind word
    cases read
    exact ⟨fun _ impossible => absurd impossible (by simp), eitherAfter?_suffix word⟩
  · -- Behind the word for a fixed value stands the value, as it does without the word.
    have valued {inner : List Char} (ends : inner <:+ cs)
        (read : ((quoted? inner).bind fun found =>
          (expandAttribute d found.1).bind fun value => some (some value, found.2))
            = some (value, rest)) :
        (∀ text, value = some text → Allowed text) ∧ rest <:+ cs := by
      obtain ⟨⟨raw, behind⟩, quoted, read⟩ := Option.bind_eq_some_iff.mp read
      obtain ⟨expansion, expanded, read⟩ := Option.bind_eq_some_iff.mp read
      cases read
      obtain ⟨inside, ends'⟩ := quoted?_parts quoted
      refine ⟨?_, ends'.trans ends⟩
      rintro _ ⟨⟩
      exact expandAttribute_allowed proper (inside (allowed.suffix ends)) expanded
    dsimp only at read
    split at read
    · rename_i word
      obtain ⟨inner, apart, read⟩ := Option.bind_eq_some_iff.mp read
      exact valued ((spaces?_suffix apart).trans (after?_suffix word)) read
    · exact valued List.suffix_rfl read

theorem attributeDecls?_parts {element : WrittenName} {fuel : Nat} (proper : d.Proper)
    (allowed : Allowed cs) (read : attributeDecls? element fuel d cs = some (d', rest)) :
    d'.Proper ∧ rest <:+ cs := by
  induction fuel generalizing d cs with
  | zero => cases read
  | succ fuel ih =>
    unfold attributeDecls? at read
    split at read
    · rename_i closed
      cases read
      exact ⟨proper, close?_suffix closed⟩
    · obtain ⟨_, apart, read⟩ := Option.bind_eq_some_iff.mp read
      obtain ⟨⟨name, behind⟩, named, read⟩ := Option.bind_eq_some_iff.mp read
      obtain ⟨_, apart', read⟩ := Option.bind_eq_some_iff.mp read
      obtain ⟨⟨tokens, behind'⟩, typed, read⟩ := Option.bind_eq_some_iff.mp read
      obtain ⟨_, apart'', read⟩ := Option.bind_eq_some_iff.mp read
      obtain ⟨⟨value, behind''⟩, given, read⟩ := Option.bind_eq_some_iff.mp read
      obtain ⟨valid, ends⟩ := name?_parts named
      have toDefault := (((spaces?_suffix apart'').trans (attributeType?_suffix typed)).trans
        (spaces?_suffix apart')).trans (ends.trans (spaces?_suffix apart))
      obtain ⟨valueAllowed, ends'⟩ := attributeDefault?_parts proper (allowed.suffix toDefault) given
      have toRest := ends'.trans toDefault
      have declProper : AttributeDecl.Proper
          ⟨element, name, tokens, if tokens then value.map collapse else value⟩ := by
        refine ⟨valid, fun text known => ?_⟩
        dsimp only at known
        split at known
        · obtain ⟨raw, rfl, rfl⟩ := Option.map_eq_some_iff.mp known
          exact collapse_allowed (valueAllowed raw rfl)
        · exact valueAllowed text known
      dsimp only at read
      split at read
      · obtain ⟨proper', ends''⟩ := ih proper (allowed.suffix toRest) read
        exact ⟨proper', ends''.trans toRest⟩
      · obtain ⟨proper', ends''⟩ := ih (proper.withAttribute declProper) (allowed.suffix toRest) read
        exact ⟨proper', ends''.trans toRest⟩

theorem attlist?_parts (proper : d.Proper) (allowed : Allowed cs)
    (read : attlist? d cs = some (d', rest)) : d'.Proper ∧ rest <:+ cs := by
  unfold attlist? at read
  obtain ⟨_, apart, read⟩ := Option.bind_eq_some_iff.mp read
  obtain ⟨⟨element, behind⟩, named, read⟩ := Option.bind_eq_some_iff.mp read
  have ends := (name?_parts named).2.trans (spaces?_suffix apart)
  obtain ⟨proper', ends'⟩ := attributeDecls?_parts proper (allowed.suffix ends) read
  exact ⟨proper', ends'.trans ends⟩

theorem skipDecl?_suffix {fuel : Nat} (read : skipDecl? fuel cs = some rest) : rest <:+ cs := by
  induction fuel generalizing cs with
  | zero => cases read
  | succ fuel ih =>
    unfold skipDecl? at read
    split at read
    · cases read
    · cases read
    · rename_i c more fuel' same
      obtain rfl := Nat.succ.inj same
      split at read
      · cases read
        exact List.suffix_cons _ _
      · split at read
        · obtain ⟨⟨_, behind⟩, ended, read⟩ := Option.bind_eq_some_iff.mp read
          exact ((ih read).trans (until?_suffix ended)).trans (List.suffix_cons _ _)
        · split at read
          · cases read
          · exact (ih read).trans (List.suffix_cons _ _)

theorem otherDecl?_parts (read : otherDecl? d cs = some (d', rest)) : d' = d ∧ rest <:+ cs := by
  unfold otherDecl? at read
  obtain ⟨_, apart, read⟩ := Option.bind_eq_some_iff.mp read
  obtain ⟨⟨_, behind⟩, named, read⟩ := Option.bind_eq_some_iff.mp read
  obtain ⟨_, skipped, read⟩ := Option.bind_eq_some_iff.mp read
  cases read
  exact ⟨rfl, ((skipDecl?_suffix skipped).trans (name?_parts named).2).trans (spaces?_suffix apart)⟩

theorem subset?_parts {fuel : Nat} (proper : d.Proper) (allowed : Allowed cs)
    (read : subset? fuel d cs = some (d', rest)) : d'.Proper ∧ rest <:+ cs := by
  induction fuel generalizing d cs d' rest with
  | zero => cases read
  | succ fuel ih =>
    -- Every declaration leaves an end of the text, from which the induction goes on.
    have further {e : Doctype} {behind : List Char} (kept : e.Proper) (ends : behind <:+ skipSpaces cs)
        (read : subset? fuel e behind = some (d', rest)) : d'.Proper ∧ rest <:+ cs := by
      have ends := ends.trans skipSpaces_suffix
      obtain ⟨proper', ends'⟩ := ih kept (allowed.suffix ends) read
      exact ⟨proper', ends'.trans ends⟩
    have inner : Allowed (skipSpaces cs) := allowed.suffix skipSpaces_suffix
    unfold subset? at read
    split at read
    · rename_i split
      cases read
      exact ⟨proper, (split ▸ List.suffix_cons _ _ : rest <:+ skipSpaces cs).trans skipSpaces_suffix⟩
    · rename_i behind split
      have ends : behind <:+ skipSpaces cs := split ▸ List.suffix_cons _ _
      obtain ⟨⟨_, named⟩, name, read⟩ := Option.bind_eq_some_iff.mp read
      obtain ⟨closed, close, read⟩ := Option.bind_eq_some_iff.mp read
      obtain ⟨⟨_, last⟩, more, read⟩ := Option.bind_eq_some_iff.mp read
      cases read
      have ends := ((after?_suffix close).trans (simpleName?_parts name).2).trans ends
      have behind : rest <:+ closed := (ih proper (inner.suffix ends) more).2
      exact ⟨proper.incomplete, (behind.trans ends).trans skipSpaces_suffix⟩
    · split at read
      · rename_i opening
        obtain ⟨⟨_, behind⟩, comment, read⟩ := Option.bind_eq_some_iff.mp read
        exact further proper ((comment?_parts comment).2.2.trans (after?_suffix opening)) read
      · rename_i opening _
        obtain ⟨behind, instruction, read⟩ := Option.bind_eq_some_iff.mp read
        exact further proper ((instruction?_suffix instruction).trans (after?_suffix opening)) read
      · rename_i opening _ _
        obtain ⟨⟨e, behind⟩, decl, read⟩ := Option.bind_eq_some_iff.mp read
        have ends := after?_suffix opening
        obtain ⟨kept, ends'⟩ := entityDecl?_parts proper (inner.suffix ends) decl
        exact further kept (ends'.trans ends) read
      · rename_i opening _ _ _
        obtain ⟨⟨e, behind⟩, decl, read⟩ := Option.bind_eq_some_iff.mp read
        have ends := after?_suffix opening
        obtain ⟨kept, ends'⟩ := attlist?_parts proper (inner.suffix ends) decl
        exact further kept (ends'.trans ends) read
      · obtain ⟨word, opening, read⟩ := Option.bind_eq_some_iff.mp read
        obtain ⟨⟨e, behind⟩, decl, read⟩ := Option.bind_eq_some_iff.mp read
        obtain ⟨same, ends⟩ := otherDecl?_parts decl
        rw [same] at read
        exact further proper (ends.trans (eitherAfter?_suffix opening)) read

theorem doctype?_parts (allowed : Allowed cs) (read : doctype? cs = some (d, rest)) :
    d.Proper ∧ rest <:+ cs := by
  unfold doctype? at read
  obtain ⟨_, apart, read⟩ := Option.bind_eq_some_iff.mp read
  obtain ⟨⟨_, behind⟩, named, read⟩ := Option.bind_eq_some_iff.mp read
  have ends := (name?_parts named).2.trans (spaces?_suffix apart)
  dsimp only at read
  have start : skipSpaces (((spaces? behind).bind externalId?).getD behind) <:+ cs := by
    refine (skipSpaces_suffix.trans ?_).trans ends
    cases external : (spaces? behind).bind externalId? with
    | none => exact List.suffix_rfl
    | some found =>
      obtain ⟨_, apart', kept⟩ := Option.bind_eq_some_iff.mp external
      exact (externalId?_suffix kept).trans (spaces?_suffix apart')
  split at read
  · rename_i inside split
    obtain ⟨⟨found, behind'⟩, subset, read⟩ := Option.bind_eq_some_iff.mp read
    obtain ⟨_, closed, read⟩ := Option.bind_eq_some_iff.mp read
    cases read
    have ends' : inside <:+ cs := (split ▸ List.suffix_cons _ _ : inside <:+ _).trans start
    obtain ⟨proper, ends''⟩ := subset?_parts Doctype.Proper.empty.incomplete (allowed.suffix ends') subset
    exact ⟨proper, ((close?_suffix closed).trans ends'').trans ends'⟩
  · obtain ⟨_, closed, read⟩ := Option.bind_eq_some_iff.mp read
    cases read
    exact ⟨Doctype.Proper.empty.incomplete, (close?_suffix closed).trans start⟩

end InlineProject.Xml
