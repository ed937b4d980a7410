import InlineProject.Yaml.Token.Scan
/-!
How the reading of tokens fails. Nearly every failure says that no token can be read; the others come
from an escape that names no code point.
-/

namespace InlineProject.Yaml

variable {α β : Type}

-- Every failure of a computation is of some sort.
def Fails (sort : Error → Prop) (r : Except Error α) : Prop := ∀ e, r = .error e → sort e

variable {sort : Error → Prop}

theorem fails_pure (x : α) : Fails sort (pure x : Except Error α) := nofun

theorem fails_ok (x : α) : Fails sort (.ok x : Except Error α) := nofun

theorem fails_error {e : Error} (sorted : sort e) : Fails sort (.error e : Except Error α) := by
  intro other same
  cases same
  exact sorted

theorem fails_throw {e : Error} (sorted : sort e) : Fails sort (throw e : Except Error α) :=
  fails_error sorted

theorem fails_bind {r : Except Error α} {f : α → Except Error β} (first : Fails sort r)
    (later : ∀ x, Fails sort (f x)) : Fails sort (r >>= f) := by
  intro e failed
  cases done : r with
  | error other =>
    rw [done] at failed
    cases failed
    exact first _ done
  | ok x =>
    rw [done] at failed
    exact later x e failed

theorem fails_ite {p : Prop} [Decidable p] {a b : Except Error α} (yes : Fails sort a)
    (no : Fails sort b) : Fails sort (if p then a else b) := by
  split
  · exact yes
  · exact no

-- The failures of the scanner.
inductive TokenFailure : Error → Prop where
  | badToken : TokenFailure .badToken
  | escape {n : Nat} {e : Error} (unnamed : codePoint n = .error e) : TokenFailure e

theorem throw_bad : Fails TokenFailure (throw .badToken : Except Error α) :=
  fails_throw .badToken

theorem error_bad : Fails TokenFailure (.error .badToken : Except Error α) :=
  fails_error .badToken

-- A check in front of a reader.
theorem guard_bad {p : Prop} [Decidable p] {f : PUnit → Except Error α}
    (later : Fails TokenFailure (f ⟨⟩)) :
    Fails TokenFailure (if p then throw .badToken >>= f else f ⟨⟩) :=
  fails_ite (fails_bind throw_bad fun _ => later) later

/-! ### Marks -/

theorem name_fails {c : Cursor} : Fails TokenFailure (name? c) := by
  unfold name?
  dsimp only
  exact fails_ite error_bad (fails_ok _)

theorem anchorName_fails {c : Cursor} : Fails TokenFailure (anchorName c) := by
  unfold anchorName
  refine fails_bind name_fails fun ⟨name, c⟩ => ?_
  dsimp only
  split
  · exact fails_pure _
  · exact fails_ite (fails_pure _) throw_bad

theorem byteEscapes_fails {fuel : Nat} {c : Cursor} : Fails TokenFailure (byteEscapes fuel c) := by
  induction fuel generalizing c with
  | zero => exact fails_ok _
  | succ fuel ih =>
    unfold byteEscapes
    refine fails_ite ?_ (fails_ok _)
    dsimp only
    refine fails_ite ?_ error_bad
    exact fails_bind ih fun _ => fails_pure _

theorem tagTextFrom_fails {fuel : Nat} {c : Cursor} : Fails TokenFailure (tagTextFrom fuel c) := by
  induction fuel generalizing c with
  | zero => exact fails_ok _
  | succ fuel ih =>
    unfold tagTextFrom
    dsimp only
    refine fails_ite ?_ (fails_pure _)
    refine fails_bind byteEscapes_fails fun ⟨bytes, c⟩ => ?_
    dsimp only
    split
    · exact fails_bind ih fun _ => fails_pure _
    · exact throw_bad

theorem tagText_fails {c : Cursor} : Fails TokenFailure (tagText c) := by
  unfold tagText
  refine fails_bind tagTextFrom_fails fun ⟨t, after⟩ => ?_
  dsimp only
  exact guard_bad (fails_pure _)

theorem tagHandle_fails {c : Cursor} : Fails TokenFailure (tagHandle c) := by
  unfold tagHandle
  refine fails_ite error_bad ?_
  dsimp only
  exact fails_ite (fails_ok _) (fails_ite (fails_ok _) error_bad)

theorem tagToken_fails {c : Cursor} : Fails TokenFailure (tagToken c) := by
  have ends (r : Token × Cursor) : Fails TokenFailure
      (if isSpaceOrEnd r.2.peek then pure (r.1, r.2) else throw .badToken) :=
    fails_ite (fails_pure _) throw_bad
  unfold tagToken
  dsimp only
  refine fails_ite ?_ (fails_ite ?_ (fails_ite ?_ ?_))
  · refine fails_bind tagText_fails fun ⟨suffix, c⟩ => ?_
    exact guard_bad (fails_bind (fails_pure _) ends)
  · exact fails_bind (fails_pure _) ends
  · refine fails_bind tagHandle_fails fun ⟨handle, c⟩ => ?_
    refine fails_bind tagText_fails fun ⟨suffix, c⟩ => ?_
    exact fails_bind (fails_pure _) ends
  · refine fails_bind tagText_fails fun ⟨suffix, c⟩ => ?_
    exact fails_bind (fails_pure _) ends

theorem digits_fails {c : Cursor} : Fails TokenFailure (digits c) := by
  unfold digits
  dsimp only
  exact fails_ite error_bad (fails_ok _)

theorem versionDirective_fails {c : Cursor} : Fails TokenFailure (versionDirective c) := by
  unfold versionDirective
  refine fails_bind digits_fails fun ⟨major, c⟩ => ?_
  dsimp only
  refine guard_bad ?_
  refine fails_bind digits_fails fun ⟨minor, c⟩ => ?_
  exact fails_ite (fails_pure _) throw_bad

theorem tagDirective_fails {c : Cursor} : Fails TokenFailure (tagDirective c) := by
  unfold tagDirective
  refine fails_bind tagHandle_fails fun ⟨handle, c⟩ => ?_
  dsimp only
  refine guard_bad ?_
  refine fails_bind tagText_fails fun ⟨expansion, c⟩ => ?_
  exact fails_ite (fails_pure _) throw_bad

theorem directive_fails {c : Cursor} : Fails TokenFailure (directive c) := by
  unfold directive
  refine fails_bind name_fails fun named => ?_
  dsimp only
  refine guard_bad ?_
  refine fails_ite ?_ (fails_ite ?_ ?_)
  -- whatever the directive is, the rest of its line has to be blank
  · refine fails_bind versionDirective_fails fun read => ?_
    split
    · exact fails_pure _
    · exact throw_bad
  · refine fails_bind tagDirective_fails fun read => ?_
    split
    · exact fails_pure _
    · exact throw_bad
  · refine fails_bind (fails_pure _) fun read => ?_
    split
    · exact fails_pure _
    · exact throw_bad

/-! ### Scalars -/

theorem blockHeader_fails {c : Cursor} : Fails TokenFailure (blockHeader c) := by
  unfold blockHeader
  dsimp only
  split
  · split
    all_goals
      refine fails_bind (fails_pure _) fun r => guard_bad ?_
      split
      · exact fails_pure _
      · exact throw_bad
  · split
    · split
      all_goals
        refine fails_bind (fails_pure _) fun r => guard_bad ?_
        split
        · exact fails_pure _
        · exact throw_bad
    · refine fails_bind (fails_pure _) fun r => guard_bad ?_
      split
      · exact fails_pure _
      · exact throw_bad

theorem blockScalar_fails {folded : Bool} {indent : Int} {c : Cursor} :
    Fails TokenFailure (blockScalar folded indent c) := by
  unfold blockScalar
  refine fails_bind blockHeader_fails fun ⟨header, c⟩ => ?_
  dsimp only
  exact fails_pure _

theorem codePoint_fails {n : Nat} : Fails TokenFailure (codePoint n) :=
  fun _ unnamed => .escape unnamed

theorem quotedBreaks_fails {fuel : Nat} {c : Cursor} :
    Fails TokenFailure (quotedBreaks fuel c) := by
  induction fuel generalizing c with
  | zero => exact error_bad
  | succ fuel ih =>
    unfold quotedBreaks
    refine fails_ite error_bad ?_
    dsimp only
    split
    · exact fails_bind ih fun _ => fails_pure _
    · exact fails_pure _

theorem escape_fails {fuel : Nat} {c : Cursor} : Fails TokenFailure (escape fuel c) := by
  unfold escape
  split
  · exact error_bad
  · split
    · exact fails_ok _
    · split
      · dsimp only
        refine fails_ite ?_ error_bad
        exact fails_bind codePoint_fails fun _ => fails_pure _
      · refine fails_ite ?_ error_bad
        exact fails_bind quotedBreaks_fails fun _ => fails_pure _

theorem quotedWord_fails {double : Bool} {fuel : Nat} {c : Cursor} :
    Fails TokenFailure (quotedWord double fuel c) := by
  induction fuel generalizing c with
  | zero => exact error_bad
  | succ fuel ih =>
    have next (word : List Char) (t : Text) (c : Cursor) : Fails TokenFailure
        (quotedWord double fuel c >>= fun r => pure (Text.ofChars word ++ t ++ r.1, r.2)) :=
      fails_bind ih fun _ => fails_pure _
    unfold quotedWord
    dsimp only
    split
    · exact fails_ite (next _ _ _) (fails_ite (next _ _ _) (fails_pure _))
    · exact fails_ite (fails_pure _) (next _ _ _)
    · refine fails_ite ?_ (next _ _ _)
      exact fails_bind escape_fails fun _ => next _ _ _
    · exact fails_pure _

theorem quotedGap_fails {fuel : Nat} {c : Cursor} : Fails TokenFailure (quotedGap fuel c) := by
  unfold quotedGap
  dsimp only
  refine guard_bad ?_
  split
  · exact fails_pure _
  · exact fails_bind quotedBreaks_fails fun _ => fails_pure _

theorem quotedFrom_fails {double : Bool} {fuel : Nat} {c : Cursor} :
    Fails TokenFailure (quotedFrom double fuel c) := by
  induction fuel generalizing c with
  | zero => exact error_bad
  | succ fuel ih =>
    unfold quotedFrom
    refine fails_bind quotedWord_fails fun ⟨word, c⟩ => ?_
    dsimp only
    refine fails_ite (fails_pure _) ?_
    refine fails_bind quotedGap_fails fun ⟨gap, c⟩ => ?_
    exact fails_bind ih fun _ => fails_pure _

theorem quotedScalar_fails {double : Bool} {c : Cursor} :
    Fails TokenFailure (quotedScalar double c) := by
  unfold quotedScalar
  exact fails_bind quotedFrom_fails fun _ => fails_pure _

/-! ### The scanner -/

namespace Scanner

variable {s : Scanner}

theorem removeKey_fails : Fails TokenFailure s.removeKey := by
  unfold removeKey
  split
  · exact fails_ite error_bad (fails_ok _)
  · exact fails_ok _

theorem saveKey_fails : Fails TokenFailure s.saveKey := by
  unfold saveKey
  refine fails_ite ?_ (fails_ok _)
  exact fails_bind removeKey_fails fun _ => fails_pure _

theorem removeStaleKeys_fails : Fails TokenFailure s.removeStaleKeys := by
  unfold removeStaleKeys
  exact fails_ite error_bad (fails_ok _)

theorem finish_fails : Fails TokenFailure s.finish := by
  unfold finish
  exact fails_bind removeKey_fails fun _ => fails_pure _

theorem fetchDirective_fails : Fails TokenFailure s.fetchDirective := by
  unfold fetchDirective
  refine fails_bind removeKey_fails fun _ => ?_
  exact fails_bind directive_fails fun _ => fails_pure _

theorem fetchSeparator_fails {t : Token} : Fails TokenFailure (s.fetchSeparator t) := by
  unfold fetchSeparator
  exact fails_bind removeKey_fails fun _ => fails_pure _

theorem fetchFlowStart_fails {t : Token} : Fails TokenFailure (s.fetchFlowStart t) := by
  unfold fetchFlowStart
  exact fails_bind saveKey_fails fun _ => fails_pure _

theorem fetchFlowEnd_fails {t : Token} : Fails TokenFailure (s.fetchFlowEnd t) := by
  unfold fetchFlowEnd
  exact fails_bind removeKey_fails fun _ => fails_pure _

theorem fetchFlowEntry_fails : Fails TokenFailure s.fetchFlowEntry := by
  unfold fetchFlowEntry
  exact fails_bind removeKey_fails fun _ => fails_pure _

theorem fetchBlockEntry_fails : Fails TokenFailure s.fetchBlockEntry := by
  unfold fetchBlockEntry
  exact guard_bad (fails_bind removeKey_fails fun _ => fails_pure _)

theorem fetchKey_fails : Fails TokenFailure s.fetchKey := by
  unfold fetchKey
  exact guard_bad (fails_bind removeKey_fails fun _ => fails_pure _)

theorem fetchValue_fails : Fails TokenFailure s.fetchValue := by
  unfold fetchValue
  dsimp only
  split
  · exact fails_bind (fails_pure _) fun _ => fails_pure _
  · exact guard_bad (fails_bind removeKey_fails fun _ => fails_pure _)

theorem fetchAnchor_fails {mark : String → Token} : Fails TokenFailure (s.fetchAnchor mark) := by
  unfold fetchAnchor
  refine fails_bind saveKey_fails fun _ => ?_
  exact fails_bind anchorName_fails fun _ => fails_pure _

theorem fetchTag_fails : Fails TokenFailure s.fetchTag := by
  unfold fetchTag
  refine fails_bind saveKey_fails fun _ => ?_
  exact fails_bind tagToken_fails fun _ => fails_pure _

theorem fetchBlockScalar_fails {folded : Bool} :
    Fails TokenFailure (s.fetchBlockScalar folded) := by
  unfold fetchBlockScalar
  refine fails_bind removeKey_fails fun _ => ?_
  exact fails_bind blockScalar_fails fun _ => fails_pure _

theorem fetchQuoted_fails {double : Bool} : Fails TokenFailure (s.fetchQuoted double) := by
  unfold fetchQuoted
  refine fails_bind saveKey_fails fun _ => ?_
  exact fails_bind quotedScalar_fails fun _ => fails_pure _

theorem fetchPlain_fails : Fails TokenFailure s.fetchPlain := by
  unfold fetchPlain
  exact fails_bind saveKey_fails fun _ => fails_pure _

-- One case for each way in which a token can start.
theorem fetch_fails {ch : Char} : Fails TokenFailure (s.fetch ch) := by
  unfold fetch
  dsimp only
  refine fails_ite fetchDirective_fails ?_
  refine fails_ite fetchSeparator_fails (fails_ite fetchSeparator_fails ?_)
  refine fails_ite fetchFlowStart_fails (fails_ite fetchFlowStart_fails ?_)
  refine fails_ite fetchFlowEnd_fails (fails_ite fetchFlowEnd_fails ?_)
  refine fails_ite fetchFlowEntry_fails (fails_ite fetchBlockEntry_fails ?_)
  refine fails_ite fetchKey_fails (fails_ite fetchValue_fails ?_)
  refine fails_ite fetchAnchor_fails (fails_ite fetchAnchor_fails ?_)
  refine fails_ite fetchTag_fails ?_
  refine fails_ite fetchBlockScalar_fails (fails_ite fetchBlockScalar_fails ?_)
  refine fails_ite fetchQuoted_fails (fails_ite fetchQuoted_fails ?_)
  exact fails_ite fetchPlain_fails error_bad

theorem step_fails : Fails TokenFailure s.step := by
  unfold step
  refine fails_bind removeStaleKeys_fails fun s => ?_
  dsimp only
  split
  · exact fails_bind finish_fails fun _ => fails_pure _
  · exact fails_bind fetch_fails fun _ => fails_pure _

-- The induction is on the steps: the run ends with the failure of its last step, or out of steps.
theorem run_failure {fuel : Nat} {e : Error} (failed : (s.run fuel).failure = some e) :
    TokenFailure e := by
  induction fuel generalizing s with
  | zero =>
    cases failed
    exact .badToken
  | succ fuel ih =>
    unfold run at failed
    cases stepped : s.step with
    | error e =>
      rw [stepped] at failed
      cases failed
      exact step_fails _ stepped
    | ok r =>
      rw [stepped] at failed
      obtain ⟨next, s'⟩ := r
      cases next with
      | none => cases failed
      | some ch => exact ih failed

end Scanner
end InlineProject.Yaml
