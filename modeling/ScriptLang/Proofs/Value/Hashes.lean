import Mathlib.Data.List.Find
import ScriptLang.Proofs.Evaluator.Evaluation
import ScriptLang.Value.SipHash

/-!
# Hashes as maps

A hash is made of pairs, of which the last one with a certain key counts. The two engines make it in loops of
their own: the machine of values that are all there, the evaluator in the midst of computing them. Both come to
the same entries, with the keys and the values of the pairs that count.

An entry is found under a `HashKey`, and of a string that is only a hash of 64 bits. So the pairs that count for an
entry are those with a certain `HashKey` (`Value.lastStored?`), whatever the hashes of strings are. They are the
pairs with an equal key (`Value.lastPair?`) as long as no two of the strings at hand share their hash
(`Value.Apart`). No more than that can be asked for: there are more strings than hashes.

Main statement: `Value.hash_last_wins`.
-/

namespace ScriptLang

namespace Value

/-! ## Keys -/

/-- Whether a value can be a key of a hash. -/
def Hashable (v : Value) : Prop := v.kind = .integer ∨ v.kind = .boolean ∨ v.kind = .string

/-- Different strings among some values have different hashes. -/
def Apart [StringHash] (vs : List Value) : Prop :=
  ∀ s t, .string s ∈ vs → .string t ∈ vs → StringHash.hash s = StringHash.hash t → s = t

theorem Apart.mono [StringHash] {vs ws : List Value} (h : Apart ws) (hsub : vs ⊆ ws) : Apart vs :=
  fun s t hs ht => h s t (hsub hs) (hsub ht)

section

variable [StringHash] {v w : Value} {vs : List Value} {hashKey : HashKey}

theorem hashable_iff : v.Hashable ↔ ∃ hashKey, v.key? = some hashKey := by
  cases v <;> simp [Hashable, kind, key?]

theorem not_hashable_iff : ¬ v.Hashable ↔ v.key? = none := by
  rw [hashable_iff, ← Option.isSome_iff_exists, Option.not_isSome_iff_eq_none]

/-- Only a value that is the same is equal to a key. -/
theorem eq_of_beq_key (hw : w.key? = some hashKey) (h : (v == w) = true) : v = w := by
  have h : v.same w = true := h
  cases w <;> cases v <;> simp_all [same, key?]

/-- **Equal keys** are those with the same `HashKey`, unless different strings share their hash. -/
theorem beq_iff_key? (hapart : Apart vs) (hv : v ∈ vs) (hw : w ∈ vs) (hkey : w.key? = some hashKey) :
    (v == w) = true ↔ v.key? = some hashKey := by
  constructor
  · intro h
    rwa [eq_of_beq_key hkey h]
  · intro h
    show v.same w = true
    cases w with
    | integer n =>
        cases hkey
        cases v <;> simp_all [same, key?]
    | boolean b =>
        cases hkey
        cases v <;> simp_all [same, key?]
    | string t =>
        cases hkey
        cases v with
        | string s =>
            have hhash : StringHash.hash s = StringHash.hash t := by simpa [key?] using h
            exact beq_iff_eq.mpr (hapart s t hv hw hhash)
        | _ => simp [key?] at h
    | _ => cases hkey

end

/-! ## The last pairs -/

/-- The last pair whose key equals `k`. -/
def lastPair? (k : Value) (pairs : List (Value × Value)) : Option (Value × Value) :=
  pairs.reverse.find? fun pair => pair.1 == k

/-- The value of the last pair whose key equals `k`. -/
def lastUnder? (k : Value) (pairs : List (Value × Value)) : Option Value := (lastPair? k pairs).map Prod.snd

/-- The entry that the last pair with a `HashKey` makes. -/
def lastStored? [StringHash] (hashKey : HashKey) (pairs : List (Value × Value)) :
    Option (StoredKey Value × Value) :=
  (pairs.reverse.find? fun pair => pair.1.key? = some hashKey).map fun pair => (⟨hashKey, pair.1⟩, pair.2)

theorem lastUnder?_cons (k : Value) (pair : Value × Value) (pairs : List (Value × Value)) :
    lastUnder? k (pair :: pairs) =
      (lastUnder? k pairs).or (if pair.1 == k then some pair.2 else none) := by
  rw [lastUnder?, lastPair?, lastUnder?, lastPair?, List.reverse_cons, List.find?_append, Option.map_or,
    List.find?_singleton]
  congr 1
  split <;> rfl

section

variable [StringHash] {k : Value} {pairs : List (Value × Value)} {hashKey : HashKey}

/-- Later pairs come first, also where the keys are. -/
theorem lastStored?_cons (hashKey : HashKey) (pair : Value × Value) (pairs : List (Value × Value)) :
    lastStored? hashKey (pair :: pairs) = (lastStored? hashKey pairs).or
      (if pair.1.key? = some hashKey then some (⟨hashKey, pair.1⟩, pair.2) else none) := by
  rw [lastStored?, lastStored?, List.reverse_cons, List.find?_append, Option.map_or, List.find?_singleton]
  congr 1
  by_cases h : pair.1.key? = some hashKey <;> simp [h]

/-- The pairs with a `HashKey` are those with an equal key, unless different strings share their hash. -/
theorem lastStored?_eq (hapart : Apart (k :: pairs.map Prod.fst)) (hk : k.key? = some hashKey) :
    lastStored? hashKey pairs = (lastPair? k pairs).map fun pair => (⟨hashKey, pair.1⟩, pair.2) := by
  have hsame : ∀ pair ∈ pairs.reverse, decide (pair.1.key? = some hashKey) = (pair.1 == k) := by
    intro pair hpair
    have hmem : pair.1 ∈ k :: pairs.map Prod.fst :=
      List.mem_cons_of_mem _ (List.mem_map_of_mem (List.mem_reverse.mp hpair))
    exact Bool.eq_iff_iff.mpr (decide_eq_true_iff.trans (beq_iff_key? hapart hmem List.mem_cons_self hk).symm)
  rw [lastStored?, lastPair?, List.find?_congr hsame]

end

/-! ## Building hashes -/

/-- Every entry is found under the `HashKey` of the key that it was given. -/
def Keyed [StringHash] (entries : Dictionary Value) : Prop := ∀ e ∈ entries, e.1.toValue.key? = some e.1.hashKey

/-- An entry is put under the hash key of its key. -/
theorem Keyed.insert [StringHash] {entries : Dictionary Value} {hashKey : HashKey} {k : Value}
    (h : Keyed entries) (hk : k.key? = some hashKey) (v : Value) :
    Keyed (Dictionary.insert ⟨hashKey, k⟩ v entries) := by
  intro e he
  rcases Dictionary.mem_insert.mp he with rfl | ⟨hold, -⟩
  · exact hk
  · exact h e hold

/-- The keys and values of some pairs, in turn. -/
def inTurn (pairs : List (Value × Value)) : List Value := pairs.flatMap fun pair => [pair.1, pair.2]

@[simp] theorem pairUp_inTurn (pairs : List (Value × Value)) : MachineM.pairUp (inTurn pairs) = pairs := by
  induction pairs with
  | nil => rfl
  | cons pair pairs ih =>
      show pair :: MachineM.pairUp (inTurn pairs) = pair :: pairs
      rw [ih]

section

variable [StringHash] {pairs : List (Value × Value)} {entries entries' : Dictionary Value}

/-- **Building a hash** of keys that can be ones: the entries are those that the pairs make, and where there are no
pairs those from before. -/
theorem hashOfPairs_of_hashable (entries : Dictionary Value) (h : ∀ pair ∈ pairs, pair.1.Hashable) :
    ∃ entries', hashOfPairs entries pairs = .ok (.hash entries') ∧
      ∀ hashKey, Dictionary.pair? hashKey entries' =
        (lastStored? hashKey pairs).or (Dictionary.pair? hashKey entries) := by
  induction pairs generalizing entries with
  | nil => exact ⟨entries, rfl, fun _ => rfl⟩
  | cons pair pairs ih =>
      obtain ⟨k, v⟩ := pair
      obtain ⟨hk, hrest⟩ := List.forall_mem_cons.mp h
      obtain ⟨first, hfirst⟩ := hashable_iff.mp hk
      obtain ⟨entries', hbuild, hpair⟩ := ih (Dictionary.insert ⟨first, k⟩ v entries) hrest
      refine ⟨entries', by rw [hashOfPairs, hfirst]; exact hbuild, fun hashKey => ?_⟩
      rw [hpair, lastStored?_cons, Option.or_assoc]
      congr 1
      by_cases hkey : hashKey = first
      · subst hkey
        have hself := Dictionary.pair?_insert_self ⟨hashKey, k⟩ v entries
        rw [if_pos hfirst, Option.some_or]
        exact hself
      · have hne : ¬ k.key? = some hashKey := by
          rw [hfirst, Option.some.injEq]
          exact Ne.symm hkey
        rw [if_neg hne, Option.none_or]
        have hother : hashKey ≠ (⟨first, k⟩ : StoredKey Value).hashKey := hkey
        exact Dictionary.pair?_insert_of_ne hother v entries

/-- **The first key** that cannot be one is found. -/
theorem hashOfPairs_of_not_hashable {before after : List (Value × Value)} {k v : Value}
    (entries : Dictionary Value) (hbefore : ∀ pair ∈ before, pair.1.Hashable) (hk : ¬ k.Hashable) :
    hashOfPairs entries (before ++ (k, v) :: after) = .error k := by
  induction before generalizing entries with
  | nil => rw [List.nil_append, hashOfPairs, not_hashable_iff.mp hk]
  | cons pair before ih =>
      obtain ⟨hpair, hrest⟩ := List.forall_mem_cons.mp hbefore
      obtain ⟨first, hfirst⟩ := hashable_iff.mp hpair
      rw [List.cons_append, hashOfPairs, hfirst]
      exact ih _ hrest

/-- What a step of the building keeps holds of the hash that is built. -/
theorem hashOfPairs_induction {motive : Dictionary Value → Prop} (hentries : motive entries)
    (hinsert : ∀ entries hashKey k v, k.key? = some hashKey → motive entries →
      motive (Dictionary.insert ⟨hashKey, k⟩ v entries))
    (h : hashOfPairs entries pairs = .ok (.hash entries')) : motive entries' := by
  induction pairs generalizing entries with
  | nil =>
      cases h
      exact hentries
  | cons pair pairs ih =>
      rw [hashOfPairs] at h
      split at h
      · next hashKey hkey => exact ih (hinsert _ _ _ _ hkey hentries) h
      · cases h

theorem hashOfPairs_keyed (hentries : Keyed entries) (h : hashOfPairs entries pairs = .ok (.hash entries')) :
    Keyed entries' :=
  hashOfPairs_induction hentries (fun _ _ _ v hk hentries => hentries.insert hk v) h

end

end Value

/-! ## Literals -/

/-- A hash literal whose keys and values can be computed, one behind the other, has the entries of the hash
that is made of them. -/
theorem EvalM.evalPairs_of_evalExprs [StringHash] {call : Value → List Value → EvalM Value} {scope : Nat} :
    ∀ {literal : List (Expr × Expr)} {acc ws : List Value} {st st' : Evaluator},
      evalExprs call scope acc (Expr.flatten literal) st = .ok ws st' →
      ∃ pairs, ws = acc.reverse ++ Value.inTurn pairs ∧ ∀ entries entries' : Dictionary Value,
        Value.hashOfPairs entries pairs = .ok (.hash entries') →
        evalPairs call scope entries literal st = .ok entries' st'
  | [], acc, ws, st, st', h => by
      unfold Expr.flatten evalExprs at h
      cases h
      refine ⟨[], (List.append_nil _).symm, fun entries entries' hbuild => ?_⟩
      cases hbuild
      unfold evalPairs
      rfl
  | (key, value) :: literal, acc, ws, st, st', h => by
      unfold Expr.flatten evalExprs at h
      obtain ⟨k, st₁, hkey, h⟩ := bind_eq_ok.mp h
      unfold evalExprs at h
      obtain ⟨v, st₂, hvalue, h⟩ := bind_eq_ok.mp h
      obtain ⟨pairs, rfl, hrest⟩ := evalPairs_of_evalExprs h
      refine ⟨(k, v) :: pairs, ?_, fun entries entries' hbuild => ?_⟩
      · simp [Value.inTurn]
      · unfold evalPairs
        rw [bind_eq_ok]
        refine ⟨k, st₁, hkey, ?_⟩
        rw [Value.hashOfPairs] at hbuild
        cases hhash : k.key? with
        | none =>
            rw [hhash] at hbuild
            cases hbuild
        | some hashKey =>
            rw [hhash] at hbuild
            exact bind_eq_ok.mpr ⟨v, st₂, hvalue, hrest _ _ hbuild⟩

/-! ## Main statement -/

namespace Value

/-- Some entries are the hash of some pairs, for both engines. -/
structure IsHashOf [StringHash] (entries : Dictionary Value) (pairs : List (Value × Value)) : Prop where
  /-- The machine makes them of the keys and values on the stack, -/
  machine : MachineM.buildHash (inTurn pairs) = pure (.hash entries)
  /-- and the evaluator makes them of any literal whose parts have these keys and values. -/
  evaluator : ∀ call scope literal st st',
    EvalM.evalExprs call scope [] (Expr.flatten literal) st = .ok (inTurn pairs) st' →
      EvalM.evalExpr call scope (.hash literal) st = .ok (.hash entries) st'
  /-- Every entry is found under the `HashKey` of the key that it holds. -/
  keyed : Keyed entries
  /-- Both engines find the value of the last pair with an equal key, or `null`. -/
  element : ∀ k : Value, k.Hashable → Apart (k :: pairs.map Prod.fst) →
    MachineM.element (.hash entries) k = pure ((lastUnder? k pairs).getD .null) ∧
      EvalM.element (.hash entries) k = pure ((lastUnder? k pairs).getD .null)
  /-- The entry that is found holds the key of that pair, which is an equal one, and its value. -/
  stored : ∀ (k : Value) (hashKey : HashKey), k.key? = some hashKey → Apart (k :: pairs.map Prod.fst) →
    (Dictionary.pair? hashKey entries = (lastPair? k pairs).map fun pair => (⟨hashKey, pair.1⟩, pair.2)) ∧
      ∀ e ∈ Dictionary.pair? hashKey entries, (e.1.toValue == k) = true

/-- An entry is found under each hash key as the last pair says. -/
theorem isHashOf_of_pair? [StringHash] {pairs : List (Value × Value)} {entries : Dictionary Value}
    (hbuild : hashOfPairs [] pairs = .ok (.hash entries))
    (hpair : ∀ hashKey, Dictionary.pair? hashKey entries = lastStored? hashKey pairs) : IsHashOf entries pairs where
  machine := by rw [MachineM.buildHash, pairUp_inTurn, hbuild]
  evaluator := by
    intro call scope literal st st' heval
    obtain ⟨pairs', hturn, hliteral⟩ := EvalM.evalPairs_of_evalExprs heval
    obtain rfl : pairs = pairs' := by
      rw [List.reverse_nil, List.nil_append] at hturn
      rw [← pairUp_inTurn pairs, hturn, pairUp_inTurn]
    unfold EvalM.evalExpr
    exact EvalM.bind_eq_ok.mpr ⟨entries, st', hliteral [] entries hbuild, rfl⟩
  keyed := hashOfPairs_keyed (List.forall_mem_nil _) hbuild
  element := by
    intro k hk hapart
    obtain ⟨hashKey, hkey⟩ := hashable_iff.mp hk
    have hget : Dictionary.get? hashKey entries = lastUnder? k pairs := by
      rw [Dictionary.get?, hpair, lastStored?_eq hapart hkey, Option.map_map]
      rfl
    have helement : Value.element (.hash entries) k = .ok ((lastUnder? k pairs).getD .null) := by
      unfold Value.element
      simp only [hkey, hget]
    rw [MachineM.element, EvalM.element, helement]
    exact ⟨rfl, rfl⟩
  stored := by
    intro k hashKey hkey hapart
    have hlast := (hpair hashKey).trans (lastStored?_eq hapart hkey)
    refine ⟨hlast, fun e he => ?_⟩
    rw [hlast] at he
    obtain ⟨pair, hfound, rfl⟩ := Option.map_eq_some_iff.mp he
    exact List.find?_some (p := fun pair : Value × Value => pair.1 == k) hfound

/-- **Hashes** are maps in which the last pair wins. Pairs whose keys can all be keys have a hash, in which both
engines find what the pairs tell. Otherwise the first key that cannot be one is reported. -/
theorem hash_last_wins [StringHash] (pairs : List (Value × Value)) :
    ((∀ pair ∈ pairs, pair.1.Hashable) → ∃ entries, IsHashOf entries pairs) ∧
      ∀ before k v after, pairs = before ++ (k, v) :: after → (∀ pair ∈ before, pair.1.Hashable) →
        ¬ k.Hashable → MachineM.buildHash (inTurn pairs) = MachineM.fail (.unusableHashKey k.kind) := by
  constructor
  · intro h
    obtain ⟨entries, hbuild, hpair⟩ := hashOfPairs_of_hashable [] h
    exact ⟨entries, isHashOf_of_pair? hbuild fun hashKey => (hpair hashKey).trans Option.or_none⟩
  · rintro before k v after rfl hbefore hk
    rw [MachineM.buildHash, pairUp_inTurn, hashOfPairs_of_not_hashable [] hbefore hk]

/-- Pairs with the keys `1`, `true`, `"1"` and once more `1`. -/
def mixedPairs : List (Value × Value) :=
  [(.integer 1, .string "a"), (.boolean true, .string "b"), (.string "1", .string "c"),
    (.integer 1, .string "d")]

theorem mixedPairs_last_wins :
    (∃ entries, MachineM.buildHash (inTurn mixedPairs) = pure (.hash entries) ∧
      MachineM.element (.hash entries) (.integer 1) = pure (.string "d") ∧
      EvalM.element (.hash entries) (.boolean true) = pure (.string "b") ∧
      MachineM.element (.hash entries) (.string "1") = pure (.string "c") ∧
      MachineM.element (.hash entries) (.integer 2) = pure .null ∧
      Dictionary.pair? (.integer 1) entries = some (⟨.integer 1, .integer 1⟩, .string "d")) ∧
    MachineM.buildHash (inTurn (mixedPairs ++ (.array [], .null) :: mixedPairs)) =
      MachineM.fail (.unusableHashKey .array) := by
  have hkeys : ∀ pair ∈ mixedPairs, pair.1.Hashable := by simp [mixedPairs, Hashable, kind]
  obtain ⟨entries, h⟩ := (hash_last_wins mixedPairs).1 hkeys
  -- there is one string among the keys
  have hapart : ∀ k ∈ [.integer 1, .boolean true, .string "1", .integer 2],
      Apart (k :: mixedPairs.map Prod.fst) := by
    intro k hk s t hs ht _
    simp only [mixedPairs, List.map_cons, List.map_nil, List.mem_cons, List.not_mem_nil, or_false] at hk hs ht
    rcases hk with rfl | rfl | rfl | rfl <;> simp_all
  refine ⟨⟨entries, h.machine, ?_, ?_, ?_, ?_, ?_⟩, ?_⟩
  · exact (h.element (.integer 1) (.inl rfl) (hapart _ (by simp))).1
  · exact (h.element (.boolean true) (.inr (.inl rfl)) (hapart _ (by simp))).2
  · exact (h.element (.string "1") (.inr (.inr rfl)) (hapart _ (by simp))).1
  · exact (h.element (.integer 2) (.inl rfl) (hapart _ (by simp))).1
  · exact (h.stored (.integer 1) (.integer 1) rfl (hapart _ (by simp))).1
  · exact (hash_last_wins _).2 mixedPairs (.array []) .null mixedPairs rfl hkeys (by simp [Hashable, kind])

end Value

end ScriptLang
