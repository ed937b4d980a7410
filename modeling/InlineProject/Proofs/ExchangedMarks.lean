import InlineProject.Descriptor.Normalize
import InlineProject.Proofs.JsonValues
import InlineProject.Proofs.ProjectRule
/-!
Marks exchanged in the text of data. A quote in the text of data opens a text, closes one, or stands for a quote
inside of one; so the exchange reaches the first character of every text and what follows a quote in it.
-/

namespace InlineProject

namespace Attribute

/-! ### Texts -/

-- A mark is exchanged where a quote stands directly before it.
def exchangeAfter (quote : Bool) : Text → Text
  | [] => []
  | p :: rest => (if quote && p = authorMark then mark else p) :: exchangeAfter (p = .char '\x22') rest

/-- A text in which the marks are exchanged at the beginning and behind quotes. -/
def exchangeWord (t : Text) : Text := exchangeAfter true t

-- The same for the characters of a whole document.
def swapAfter (quote : Bool) : List Char → List Char
  | [] => []
  | c :: rest => (if quote && c = '_' then '@' else c) :: swapAfter (c = '\x22') rest

variable {cs rest : List Char} {quote : Bool} {c : Char}

theorem swapAfter_mark (other : c ≠ '_') (noQuote : c ≠ '\x22') :
    swapAfter quote (c :: rest) = c :: swapAfter false rest := by
  rw [swapAfter, decide_eq_false other, decide_eq_false noQuote, Bool.and_false, if_neg Bool.false_ne_true]

theorem swapAfter_append (other : c ≠ '_') (noQuote : c ≠ '\x22') :
    swapAfter quote (cs ++ c :: rest) = swapAfter quote cs ++ c :: swapAfter false rest := by
  induction cs generalizing quote with
  | nil => exact swapAfter_mark other noQuote
  | cons d cs ih => rw [List.cons_append, swapAfter, swapAfter, ih, List.cons_append]

-- Without quotes nothing is exchanged.
theorem swapAfter_quiet (quiet : ∀ c ∈ cs, c ≠ '\x22') : swapAfter false cs = cs := by
  induction cs with
  | nil => rfl
  | cons c cs ih =>
    obtain ⟨first, others⟩ := List.forall_mem_cons.mp quiet
    rw [swapAfter, decide_eq_false first, ih others, Bool.false_and, if_neg Bool.false_ne_true]

theorem swapAfter_plain (some : cs ≠ []) (plain : ∀ c ∈ cs, c ≠ '_' ∧ c ≠ '\x22') :
    swapAfter quote (cs ++ rest) = cs ++ swapAfter false rest := by
  induction cs generalizing quote with
  | nil => exact absurd rfl some
  | cons c cs ih =>
    obtain ⟨first, others⟩ := List.forall_mem_cons.mp plain
    rw [List.cons_append, swapAfter_mark first.1 first.2]
    cases cs with
    | nil => rfl
    | cons d cs =>
      rw [ih (List.cons_ne_nil _ _) others]
      rfl

theorem allFrom_swap {fuel : Nat} (enough : cs.length ≤ fuel) :
    Replace.allFrom ['\x22', '_'] ['\x22', '@'] fuel cs = swapAfter false cs := by
  induction fuel using Nat.strong_induction_on generalizing cs with
  | _ fuel ih =>
    match fuel, cs with
    | 0, [] => rfl
    | 0, c :: rest => simp at enough
    | fuel + 1, [] => rfl
    | fuel + 1, c :: rest =>
      have enough : rest.length ≤ fuel := Nat.le_of_succ_le_succ enough
      rw [Replace.allFrom]
      split
      · rename_i front
        obtain ⟨rfl, behind⟩ := List.cons_prefix_cons.mp (List.isPrefixOf_iff_prefix.mp front)
        obtain ⟨more, rfl⟩ := behind
        have less : more.length ≤ fuel := by
          simp only [List.cons_append, List.nil_append, List.length_cons] at enough
          omega
        change '\x22' :: '@' :: Replace.allFrom _ _ fuel more = _
        rw [ih fuel (Nat.lt_succ_self _) less]
        rfl
      · rename_i apart
        rw [ih fuel (Nat.lt_succ_self _) enough, swapAfter, Bool.false_and, if_neg Bool.false_ne_true]
        by_cases noQuote : c = '\x22'
        · subst noQuote
          cases rest with
          | nil => rfl
          | cons d rest =>
            have other : d ≠ '_' := by
              rintro rfl
              exact apart rfl
            rw [swapAfter, swapAfter, decide_eq_false other, Bool.and_false, Bool.and_false]
        · rw [decide_eq_false noQuote]

theorem exchangeText_swap : exchangeText cs = swapAfter false cs := allFrom_swap (Nat.le_refl _)

/-! ### Written texts -/

theorem plain_of_isNumeral (numeral : isNumeral c = true) : c ≠ '_' ∧ c ≠ '\x22' := by
  constructor
  · rintro rfl
    cases numeral
  · rintro rfl
    cases numeral

theorem swapAfter_numeral (numeral : Numeral cs) : swapAfter false cs = cs :=
  swapAfter_quiet fun c member => (plain_of_isNumeral (numeral c member)).2

theorem plain_unitEscape {n : Nat} : ∀ c ∈ Json.unitEscape n, c ≠ '_' ∧ c ≠ '\x22' := by
  refine List.forall_mem_cons.mpr ⟨by decide, List.forall_mem_cons.mpr ⟨by decide, fun c member => ?_⟩⟩
  exact plain_of_isNumeral (numeral_padded (numeral_digits 16 n) c member)

-- What is written for any other code point has neither a mark nor a quote.
theorem plain_point {p : CodePoint} (other : p ≠ authorMark) (noQuote : p ≠ .char '\x22') :
    ∀ c ∈ Json.escapedPoint p, c ≠ '_' ∧ c ≠ '\x22' := by
  have apart {q : Char} (different : p ≠ .char q) : p.toNat ≠ q.toNat := fun same =>
    different (CodePoint.toNat_injective same)
  unfold Json.escapedPoint
  dsimp only
  split
  · rename_i same
    exact absurd same (apart noQuote)
  iterate 6
    split
    · simp
  split
  · rename_i plain
    simp only [Bool.and_eq_true, decide_eq_true_eq] at plain
    have valid : p.toNat.isValidChar := .inl (by omega)
    have size : (Char.ofNat p.toNat).toNat = p.toNat := by
      rw [Char.ofNat, dif_pos valid]
      rfl
    refine List.forall_mem_singleton.mpr ⟨fun same => ?_, fun same => ?_⟩
    · exact apart other (by rw [← size, same])
    · exact apart noQuote (by rw [← size, same])
  · intro c member
    obtain ⟨n, _, inside⟩ := List.mem_flatMap.mp member
    exact plain_unitEscape c inside

theorem swapAfter_point {p : CodePoint} : swapAfter quote (Json.escapedPoint p ++ rest)
    = Json.escapedPoint (if quote && p = authorMark then mark else p) ++ swapAfter (p = .char '\x22') rest := by
  by_cases isMark : p = authorMark
  · subst isMark
    cases quote <;> rfl
  · by_cases isQuote : p = .char '\x22'
    · subst isQuote
      cases quote <;> rfl
    · have some : Json.escapedPoint p ≠ [] := List.length_pos_iff.mp (Json.escapedPoint_some p)
      rw [swapAfter_plain some (plain_point isMark isQuote), decide_eq_false isMark, decide_eq_false isQuote,
        Bool.and_false, if_neg Bool.false_ne_true]

theorem swapAfter_points {t : Text} : swapAfter quote (t.flatMap Json.escapedPoint ++ ['\x22'])
    = (exchangeAfter quote t).flatMap Json.escapedPoint ++ ['\x22'] := by
  induction t generalizing quote with
  | nil => cases quote <;> rfl
  | cons p t ih =>
    rw [List.flatMap_cons, List.append_assoc, swapAfter_point, ih, exchangeAfter, List.flatMap_cons, List.append_assoc]

theorem swapAfter_quoted {t : Text} : swapAfter quote (Json.quoted t) = Json.quoted (exchangeWord t) := by
  unfold Json.quoted exchangeWord
  rw [List.cons_append, List.cons_append, ← swapAfter_points]
  cases quote <;> rfl

theorem swapAfter_separated {parts : List (List Char)} :
    swapAfter false (Json.separated parts) = Json.separated (parts.map (swapAfter false)) := by
  induction parts with
  | nil => rfl
  | cons part parts ih =>
    cases parts with
    | nil => simp only [Json.separated, List.map_cons, List.map_nil, List.intercalate_singleton]
    | cons next parts =>
      rw [Json.separated_more, swapAfter_append (by decide) (by decide), swapAfter_mark (by decide) (by decide), ih,
        List.map_cons, List.map_cons, List.map_cons, Json.separated_more]

end Attribute

namespace Json

/-! ### Data -/

-- The value in which every text, be it a name or not, is another.
mutual
def withTexts (f : Text → Text) : Json → Json
  | .str t => .str (f t)
  | .arr items => .arr (itemsWithTexts f items)
  | .obj fields => .obj (distinctFields (fieldsWithTexts f fields))
  | j => j

def itemsWithTexts (f : Text → Text) : List Json → List Json
  | [] => []
  | item :: rest => withTexts f item :: itemsWithTexts f rest

def fieldsWithTexts (f : Text → Text) : List (Text × Json) → List (Text × Json)
  | [] => []
  | (name, value) :: rest => (f name, withTexts f value) :: fieldsWithTexts f rest
end

end Json

namespace Attribute

open Project (Every EveryItem EveryField ShortLeaf Short render_ok map_parts bind_parts)

-- What becomes of a text on the way through the text of data.
def passed (t : Text) : Text := Json.joined (exchangeWord t)

-- Numbers that are read from the text of data as what they were.
def Steady (j : Json) : Prop := ∀ x, j = .real x → Json.read (Json.numberLayout.render x) = .ok (.real x)

abbrev SteadyItems (items : List Json) : Prop := EveryItem (fun _ => True) Steady items

abbrev SteadyFields (fields : List (Text × Json)) : Prop := EveryField (fun _ => True) Steady fields

theorem means_word {cs : List Char} {j : Json} (numeral : Numeral cs) (read : Json.atom cs = .ok (j, [])) :
    Json.Means (swapAfter false cs) j := by
  rw [swapAfter_numeral numeral]
  exact Json.means_atom numeral read

-- The text of a value, with marks exchanged, means the value with the texts exchanged.
mutual
theorem means_exchanged : (v : Json) → {cs : List Char} → Every (fun _ => True) Steady v → v.render = .ok cs →
    Json.Means (swapAfter false cs) (v.withTexts passed)
  | .null, _, _, rendered => by
    cases rendered
    exact means_word (by decide) rfl
  | .bool b, _, _, rendered => by
    cases rendered
    cases b
    · exact means_word (by decide) rfl
    · exact means_word (by decide) rfl
  | .int i, _, _, rendered => by
    rw [Json.render] at rendered
    obtain ⟨text, wrote, rfl⟩ := map_parts rendered
    obtain ⟨short, rfl⟩ := Integer.write_exact.mp wrote
    rw [swapAfter_numeral (numeral_int i)]
    exact Json.means_int short
  | .real x, _, steady, rendered => by
    cases rendered
    have numeral : Numeral (Json.numberLayout.render x) := numeral_real (by decide) (by decide) x
    rw [swapAfter_numeral numeral]
    exact Json.means_of_read numeral (steady x rfl)
  | .str t, _, _, rendered => by
    cases rendered
    rw [swapAfter_quoted]
    exact Json.means_text
  | .arr items, _, steady, rendered => by
    rw [Json.render] at rendered
    obtain ⟨parts, inside, rendered⟩ := bind_parts rendered
    cases rendered
    have means := Json.means_list (means_items items steady inside)
    rwa [List.cons_append, swapAfter_mark (by decide) (by decide), swapAfter_append (by decide) (by decide),
      swapAfter_separated]
  | .obj fields, _, steady, rendered => by
    rw [Json.render] at rendered
    obtain ⟨parts, inside, rendered⟩ := bind_parts rendered
    cases rendered
    obtain ⟨entries, means, written, meant⟩ := means_fields fields steady inside
    have means := @Json.means_object _ Prod.fst Prod.snd entries means
    rw [List.cons_append, swapAfter_mark (by decide) (by decide), swapAfter_append (by decide) (by decide),
      swapAfter_separated, ← written]
    rw [meant] at means
    exact means

theorem means_items : (items : List Json) → {parts : List (List Char)} → SteadyItems items →
    Json.renderItems items = .ok parts →
    List.Forall₂ Json.Means (parts.map (swapAfter false)) (Json.itemsWithTexts passed items)
  | [], _, _, rendered => by
    cases rendered
    exact .nil
  | item :: rest, _, steady, rendered => by
    rw [Json.renderItems] at rendered
    obtain ⟨part, first, rendered⟩ := bind_parts rendered
    obtain ⟨parts, others, rendered⟩ := bind_parts rendered
    cases rendered
    exact .cons (means_exchanged item steady.1 first) (means_items rest steady.2 others)

theorem means_fields : (fields : List (Text × Json)) → {parts : List (List Char)} → SteadyFields fields →
    Json.renderFields fields = .ok parts → ∃ entries : List (Text × List Char × Json),
      (∀ f ∈ entries, Json.Means f.2.1 f.2.2) ∧
      entries.map (fun f => Json.quoted f.1 ++ ':' :: ' ' :: f.2.1) = parts.map (swapAfter false) ∧
      entries.map (fun f => (Json.joined f.1, f.2.2)) = Json.fieldsWithTexts passed fields
  | [], _, _, rendered => by
    cases rendered
    exact ⟨[], nofun, rfl, rfl⟩
  | (name, value) :: rest, _, steady, rendered => by
    rw [Json.renderFields] at rendered
    obtain ⟨part, first, rendered⟩ := bind_parts rendered
    obtain ⟨parts, others, rendered⟩ := bind_parts rendered
    cases rendered
    obtain ⟨entries, means, written, meant⟩ := means_fields rest steady.2.2 others
    refine ⟨(exchangeWord name, swapAfter false part, value.withTexts passed) :: entries, ?_, ?_, ?_⟩
    · exact List.forall_mem_cons.mpr ⟨means_exchanged value steady.2.1 first, means⟩
    · rw [List.map_cons, List.map_cons, written, swapAfter_append (by decide) (by decide), swapAfter_quoted,
        swapAfter_mark (by decide) (by decide)]
    · rw [List.map_cons, meant]
      rfl
end

/-! ### Data that both ways treat alike -/

-- In a text no mark follows a quote directly, and no half of a pair the other one.
structure Calm (t : Text) : Prop where
  apart : t.IsChain fun p q => ¬(p = .char '\x22' ∧ q = authorMark)
  settled : Json.Settled t

def CalmLeaf (j : Json) : Prop := ∀ t, j = .str t → Calm t ∧ t.head? ≠ some authorMark

theorem exchangeAfter_apart {t : Text} (apart : t.IsChain fun p q => ¬(p = .char '\x22' ∧ q = authorMark)) :
    exchangeAfter quote t = if quote then exchangeName t else t := by
  induction t generalizing quote with
  | nil => cases quote <;> rfl
  | cons p t ih =>
    obtain ⟨first, others⟩ := List.isChain_cons.mp apart
    have behind : (if (p = .char '\x22' : Bool) then exchangeName t else t) = t := by
      split
      · rename_i isQuote
        cases t with
        | nil => rfl
        | cons q t =>
          have other : q ≠ authorMark := fun isMark => first q rfl ⟨by simpa using isQuote, isMark⟩
          rw [exchangeName, if_neg other]
      · rfl
    rw [exchangeAfter, ih others, behind]
    cases quote with
    | false => rfl
    | true =>
      rw [Bool.true_and, if_pos rfl, exchangeName]
      by_cases isMark : p = authorMark
      · rw [if_pos (by simpa using isMark), if_pos isMark]
      · rw [if_neg (by simpa using isMark), if_neg isMark]

theorem settled_exchangeName {t : Text} (settled : Json.Settled t) : Json.Settled (exchangeName t) := by
  cases t with
  | nil => exact settled
  | cons p t =>
    rw [exchangeName]
    split
    · exact (Json.settled_char (Json.settled_cons.mp settled).2).1
    · exact settled

theorem passed_calm {t : Text} (calm : Calm t) : passed t = exchangeName t := by
  have same : exchangeWord t = exchangeName t := exchangeAfter_apart calm.apart
  rw [passed, same, Json.joined_settled (settled_exchangeName calm.settled)]

theorem passed_leaf {t : Text} (calm : Calm t) (unmarked : t.head? ≠ some authorMark) : passed t = t := by
  rw [passed_calm calm]
  cases t with
  | nil => rfl
  | cons p t => exact if_neg fun isMark => unmarked (congrArg some isMark)

mutual
theorem passed_exchange : (v : Json) → Every Calm CalmLeaf v → v.withTexts passed = exchange v
  | .str t, calm => by
    obtain ⟨calm, unmarked⟩ := calm t rfl
    rw [Json.withTexts, passed_leaf calm unmarked, exchange]
    all_goals simp
  | .arr items, calm => by rw [Json.withTexts, passed_items items calm, exchange]
  | .obj fields, calm => by rw [Json.withTexts, passed_fields fields calm, exchange]
  | .null, _ | .bool _, _ | .int _, _ | .real _, _ => rfl

theorem passed_items : (items : List Json) → EveryItem Calm CalmLeaf items →
    Json.itemsWithTexts passed items = exchangeItems items
  | [], _ => rfl
  | item :: rest, calm => by
    rw [Json.itemsWithTexts, passed_exchange item calm.1, passed_items rest calm.2, exchangeItems]

theorem passed_fields : (fields : List (Text × Json)) → EveryField Calm CalmLeaf fields →
    Json.fieldsWithTexts passed fields = exchangeFields fields
  | [], _ => rfl
  | (name, value) :: rest, calm => by
    rw [Json.fieldsWithTexts, passed_calm calm.1, passed_exchange value calm.2.1, passed_fields rest calm.2.2,
      exchangeFields]
end

/-! ### The way through the text -/

mutual
theorem render_long : (v : Json) → ¬Short v → v.render = .error .textTooLong
  | .int i, long => by
    have tooLong : ¬Integer.Short i := fun short => long fun _ same => by
      cases same
      exact short
    rw [Json.render, Integer.write_long tooLong]
    rfl
  | .arr items, long => by
    rw [Json.render, renderItems_long items long]
    rfl
  | .obj fields, long => by
    rw [Json.render, renderFields_long fields long]
    rfl
  | .null, long | .bool _, long | .real _, long | .str _, long => absurd nofun long

theorem renderItems_long : (items : List Json) → ¬EveryItem (fun _ => True) ShortLeaf items →
    Json.renderItems items = .error .textTooLong
  | [], long => absurd trivial long
  | item :: rest, long => by
    rw [Json.renderItems]
    by_cases short : Short item
    · obtain ⟨part, rendered⟩ := render_ok item short
      rw [rendered, renderItems_long rest fun others => long ⟨short, others⟩]
      rfl
    · rw [render_long item short]
      rfl

theorem renderFields_long : (fields : List (Text × Json)) → ¬EveryField (fun _ => True) ShortLeaf fields →
    Json.renderFields fields = .error .textTooLong
  | [], long => absurd trivial long
  | (name, value) :: rest, long => by
    rw [Json.renderFields]
    by_cases short : Short value
    · obtain ⟨part, rendered⟩ := render_ok value short
      rw [rendered, renderFields_long rest fun others => long ⟨trivial, short, others⟩]
      rfl
    · rw [render_long value short]
      rfl
end

theorem exchanged_read {v : Json} (short : Short v) (steady : Every (fun _ => True) Steady v) :
    ∃ cs, v.render = .ok cs ∧ Json.read (exchangeText cs) = .ok (v.withTexts passed) := by
  obtain ⟨cs, rendered⟩ := render_ok v short
  refine ⟨cs, rendered, ?_⟩
  rw [exchangeText_swap]
  exact Json.read_of_means (means_exchanged v steady rendered)

-- Data whose numbers can be written pass through their text, with the texts exchanged; both ways of exchanging the
-- marks agree on data with calm texts.
theorem exchange_text {v : Json} (steady : Every (fun _ => True) Steady v) :
    (¬Short v → v.render = .error .textTooLong) ∧
    (Short v → ∃ cs, v.render = .ok cs ∧ Json.read (exchangeText cs) = .ok (v.withTexts passed)) ∧
    (Short v → Every Calm CalmLeaf v → ∀ d,
      Normalizer.exchange ⟨d, .text⟩ v = Normalizer.exchange ⟨d, .structured⟩ v) := by
  refine ⟨render_long v, fun short => exchanged_read short steady, fun short calm d => ?_⟩
  obtain ⟨cs, rendered, read⟩ := exchanged_read short steady
  have same : v.withTexts passed = exchange v := passed_exchange v calm
  rw [Normalizer.exchange, Normalizer.exchange]
  dsimp only
  rw [rendered]
  dsimp only
  rw [read, same]

-- A name and a text with marks, one of them behind a quote, and numbers of both kinds.
def marked : Json :=
  .obj [(Text.ofString "_a", .arr [.int 3, .real (.zero false), .ofString "_b \x22_c", .ofString "\x22\x5C_"])]

theorem exchange_text_marked : ∃ cs, marked.render = .ok cs ∧ Json.read (exchangeText cs) = .ok (.obj
    [(Text.ofString "@a", .arr [.int 3, .real (.zero false), .ofString "@b \x22@c", .ofString "\x22\x5C_"])]) := by
  have three : ShortLeaf (.int 3) := by
    rintro _ ⟨⟩
    decide +kernel
  have zero : Steady (.real (.zero false)) := by
    rintro _ ⟨⟩
    rfl
  have short : Short marked := ⟨trivial, ⟨three, nofun, nofun, nofun, trivial⟩, trivial⟩
  have steady : Every (fun _ => True) Steady marked := ⟨trivial, ⟨nofun, zero, nofun, nofun, trivial⟩, trivial⟩
  exact (exchange_text steady).2.1 short

-- Two halves of a pair come back as one character, and an integer with too many digits does not come back at all.
theorem exchange_text_halves :
    (∃ cs t, (Json.str [.half 0, .half 1024]).render = .ok cs ∧ Json.read (exchangeText cs) = .ok (.str t) ∧
      t ≠ exchangeWord [.half 0, .half 1024]) ∧
    ∀ cs, (Json.int (16 ^ 3600)).render ≠ .ok cs := by
  constructor
  · obtain ⟨cs, rendered, read⟩ := @exchanged_read (.str [.half 0, .half 1024]) nofun nofun
    exact ⟨cs, _, rendered, read, by decide⟩
  · intro cs rendered
    rw [Json.render, Integer.write_long Integer.power_long] at rendered
    cases rendered

end Attribute
end InlineProject
