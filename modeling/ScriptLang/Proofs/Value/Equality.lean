import ScriptLang.Proofs.Value.Hashes
import ScriptLang.Proofs.Evaluator.Renumbering
import ScriptLang.Proofs.Evaluator.ErrorValues

/-!
# Equality of values

`==` is an equivalence, and what is equal cannot be told apart: not by its kind, not as a key, not as a condition,
and, where no function is inside that shows a handle or its body, not in print. Neither `==` nor the printed text
depends on the order in which a hash was filled: its entries are kept in the ascending order of their keys
(`Dictionary.Ascending`) and printed in the order of their texts (`Value.Reordered.text_eq`).

Main statement: `Value.beq_laws`.
-/

namespace ScriptLang

/-! ## The order of keys -/

namespace Value

variable {u v w : Value}

theorem before_irrefl (v : Value) : v.before v = false := by
  cases v with
  | integer n => exact decide_eq_false Int64.lt_irrefl
  | boolean b => cases b <;> rfl
  | string s => exact decide_eq_false (String.lt_irrefl s)
  | _ => rfl

theorem before_trans (huv : u.before v = true) (hvw : v.before w = true) : u.before w = true := by
  cases u <;> cases v <;> cases w <;>
    simp_all only [before, decide_eq_true_eq, Bool.and_eq_true, Bool.not_eq_true', Bool.false_eq_true,
      Bool.true_eq_false, false_and]
  · exact Int64.lt_trans huv hvw
  · exact String.lt_trans huv hvw

/-- Of two keys one comes in front of the other. -/
theorem before_or_before (hv : v.Hashable) (hw : w.Hashable) (h : v ≠ w) : v.before w = true ∨ w.before v = true := by
  cases v with
  | integer m =>
      cases w with
      | integer n => simpa [before] using Int64.lt_or_lt_of_ne fun heq => h (congrArg integer heq)
      | _ => exact .inl rfl
  | boolean a =>
      cases w with
      | integer n => exact .inr rfl
      | boolean b => cases a <;> cases b <;> simp_all [before]
      | string s => exact .inl rfl
      | _ => simp [Hashable, kind] at hw
  | string s =>
      cases w with
      | integer n => exact .inr rfl
      | boolean b => exact .inr rfl
      | string t =>
          have hne : s ≠ t := fun heq => h (congrArg string heq)
          by_cases hlt : s < t
          · exact .inl (decide_eq_true hlt)
          · refine .inr (decide_eq_true (String.not_le.mp fun hle => hne ?_))
            exact String.le_antisymm hle (String.not_lt.mp hlt)
      | _ => simp [Hashable, kind] at hw
  | _ => simp [Hashable, kind] at hv

end Value

namespace Dictionary

variable {α : Type} {entry e : StoredKey Value × α} {entries : Dictionary α}

/-- Some entries are in the strictly ascending order of their keys, and there is one of them under a `HashKey`. -/
def Ascending (entries : Dictionary α) : Prop :=
  entries.Pairwise fun e f => e.1.toValue.before f.1.toValue = true ∧ e.1.hashKey ≠ f.1.hashKey

theorem pair?_head (entry : StoredKey Value × α) (entries : Dictionary α) :
    pair? entry.1.hashKey (entry :: entries) = some entry := (pair?_cons _ _ _).trans (if_pos rfl)

namespace Ascending

/-- There is no other entry under the `HashKey` of the first one. -/
theorem pair?_tail (h : Ascending (entry :: entries)) : pair? entry.1.hashKey entries = none := by
  cases hpair : pair? entry.1.hashKey entries with
  | none => rfl
  | some e =>
      obtain ⟨hmem, hkey⟩ := mem_of_pair? hpair
      exact absurd hkey.symm ((List.pairwise_cons.mp h).1 e hmem).2

/-- An entry is placed where it keeps the order. -/
theorem place (h : Ascending entries)
    (hplace : ∀ e ∈ entries, e.1.hashKey ≠ entry.1.hashKey ∧
      (e.1.toValue.before entry.1.toValue = true ∨ entry.1.toValue.before e.1.toValue = true)) :
    Ascending (Dictionary.place entry entries) := by
  induction entries with
  | nil => exact List.pairwise_singleton _ _
  | cons other entries ih =>
      obtain ⟨hfirst, hrest⟩ := List.pairwise_cons.mp h
      obtain ⟨hother, hothers⟩ := List.forall_mem_cons.mp hplace
      rw [Dictionary.place]
      split
      · next hbefore =>
          refine List.pairwise_cons.mpr ⟨List.forall_mem_cons.mpr ⟨⟨hbefore, hother.1.symm⟩, fun e he => ?_⟩, h⟩
          exact ⟨Value.before_trans hbefore (hfirst e he).1, (hothers e he).1.symm⟩
      · next hbefore =>
          refine List.pairwise_cons.mpr ⟨fun e he => ?_, ih hrest hothers⟩
          rcases mem_place.mp he with rfl | he
          · exact ⟨hother.2.resolve_right hbefore, hother.1⟩
          · exact hfirst e he

end Ascending

/-- An entry that is put into a hash leaves it in order. -/
theorem Ascending.insert [StringHash] {entries : Dictionary Value} {hashKey : HashKey} {k : Value}
    (h : Ascending entries) (hkeyed : Value.Keyed entries) (hk : k.key? = some hashKey) (v : Value) :
    Ascending (Dictionary.insert ⟨hashKey, k⟩ v entries) := by
  have herase : Ascending (erase hashKey entries) := h.filter _
  refine herase.place fun e he => ?_
  obtain ⟨hmem, hne⟩ := mem_erase.mp he
  refine ⟨hne, Value.before_or_before (Value.hashable_iff.mpr ⟨_, hkeyed e hmem⟩)
    (Value.hashable_iff.mpr ⟨_, hk⟩) fun heq => hne ?_⟩
  -- the `HashKey` is told by the key, and entries under this one have been dropped
  exact Option.some.inj ((hkeyed e hmem).symm.trans (heq ▸ hk))

end Dictionary

namespace Value

open Dictionary (Ascending)

variable {u v w w' : Value} {us vs ws : List Value} {es fs entries : Dictionary Value}
  {pairs pairs' : List (Value × Value)}

/-! ## Equal parts

Equality is a test that runs along both values at once. As a relation, `EqualParts` says what the test comes
to; it follows the constructors, and the proofs below go by induction on values. -/

theorem sameElements_iff : sameElements vs ws = true ↔ List.Forall₂ (fun v w => (v == w) = true) vs ws := by
  induction vs generalizing ws with
  | nil => cases ws <;> simp [sameElements]
  | cons v vs ih =>
      cases ws with
      | nil => simp [sameElements]
      | cons w ws =>
          rw [sameElements, Bool.and_eq_true_iff, List.forall₂_cons, ih]
          exact Iff.rfl

/-- Two entries are found under the same `HashKey`, and have equal keys and equal values. -/
def SameEntry (e f : StoredKey Value × Value) : Prop :=
  e.1.hashKey = f.1.hashKey ∧ (e.1.toValue == f.1.toValue) = true ∧ (e.2 == f.2) = true

/-- Hashes are equal if their entries are, in the order of keys. -/
theorem sameEntries_iff : sameEntries es fs = true ↔ List.Forall₂ SameEntry es fs := by
  induction es generalizing fs with
  | nil => cases fs <;> simp [sameEntries]
  | cons e es ih =>
      cases fs with
      | nil => simp [sameEntries]
      | cons f fs =>
          rw [sameEntries, Bool.and_eq_true_iff, Bool.and_eq_true_iff, Bool.and_eq_true_iff, beq_iff_eq,
            List.forall₂_cons, ih, and_assoc, and_assoc, SameEntry, and_assoc, and_assoc]
          exact Iff.rfl

/-- Two values are the same, or they are made of equal parts, or the same evaluation made them. -/
inductive EqualParts : Value → Value → Prop where
  | refl (v : Value) : EqualParts v v
  | array {vs ws : List Value} :
      List.Forall₂ (fun v w => (v == w) = true) vs ws → EqualParts (.array vs) (.array ws)
  | hash {es fs : List (StoredKey Value × Value)} :
      List.Forall₂ SameEntry es fs → EqualParts (.hash es) (.hash fs)
  | closure (identity : Nat) (code code' : CompiledFunction) (free free' : List Value) :
      EqualParts (.closure identity code free) (.closure identity code' free')
  | function (identity : Nat) (parameters parameters' : List String) (body body' : List Stmt)
      (scope scope' : Nat) :
      EqualParts (.function identity parameters body scope) (.function identity parameters' body' scope')

theorem beq_refl (v : Value) : (v == v) = true := by
  induction v using byElements with
  | array elements ih => exact sameElements_iff.mpr (List.forall₂_same.mpr ih)
  | hash entries ih => exact sameEntries_iff.mpr (List.forall₂_same.mpr fun e he => ⟨rfl, ih e he⟩)
  | null => rfl
  | integer value => exact beq_self_eq_true value
  | boolean value => exact beq_self_eq_true value
  | string contents => exact beq_self_eq_true contents
  | error message => exact beq_self_eq_true message
  | builtin b => exact beq_self_eq_true b
  | compiledFunction code => exact beq_self_eq_true code
  | closure identity => exact beq_self_eq_true identity
  | function identity => exact beq_self_eq_true identity

theorem beq_iff : (v == w) = true ↔ EqualParts v w := by
  constructor
  · intro h
    have h : v.same w = true := h
    cases v with
    | null =>
        cases w with
        | null => exact .refl _
        | _ => cases h
    | array vs =>
        cases w with
        | array ws => exact .array (sameElements_iff.mp h)
        | _ => cases h
    | hash es =>
        cases w with
        | hash fs => exact .hash (sameEntries_iff.mp h)
        | _ => cases h
    | closure identity code free =>
        cases w with
        | closure identity' code' free' =>
            obtain rfl : identity = identity' := eq_of_beq h
            exact .closure identity _ _ _ _
        | _ => cases h
    | function identity parameters body scope =>
        cases w with
        | function identity' parameters' body' scope' =>
            obtain rfl : identity = identity' := eq_of_beq h
            exact .function identity _ _ _ _ _ _
        | _ => cases h
    | _ =>
        -- what has no parts is compared as a whole
        cases w <;> simp only [same, beq_iff_eq, Bool.false_eq_true] at h
        subst h
        exact .refl _
  · intro h
    cases h with
    | refl => exact beq_refl v
    | array hparts => exact sameElements_iff.mpr hparts
    | hash hparts => exact sameEntries_iff.mpr hparts
    | closure identity => exact beq_self_eq_true identity
    | function identity => exact beq_self_eq_true identity

/-! ## An equivalence -/

section

variable {α : Type} {R : α → α → Prop} {as bs cs : List α}

/-- A relation between elements may be weakened for the elements that there are. -/
theorem forall₂_imp_of_mem {β : Type} {R S : α → β → Prop} {as : List α} {bs : List β}
    (h : List.Forall₂ R as bs) (himp : ∀ a ∈ as, ∀ b, R a b → S a b) : List.Forall₂ S as bs :=
  ((List.forall₂_and_left as bs).mpr ⟨himp, h⟩).imp fun _ b hab => hab.1 b hab.2

/-- Transitivity, for the elements that there are. -/
theorem forall₂_trans (h₁ : List.Forall₂ R as bs) (h₂ : List.Forall₂ R bs cs)
    (htrans : ∀ a ∈ as, ∀ b c, R a b → R b c → R a c) : List.Forall₂ R as cs := by
  induction h₁ generalizing cs with
  | nil => exact h₂
  | cons hab _ ih =>
      cases h₂ with
      | cons hbc h₂ =>
          obtain ⟨ha, has⟩ := List.forall_mem_cons.mp htrans
          exact .cons (ha _ _ hab hbc) (ih h₂ has)

end

theorem beq_symm (h : (v == w) = true) : (w == v) = true := by
  induction v using byElements generalizing w with
  | array elements ih =>
      cases beq_iff.mp h with
      | refl => exact h
      | array hparts => exact beq_iff.mpr (.array (forall₂_imp_of_mem hparts fun v hv w => ih v hv).flip)
  | hash entries ih =>
      cases beq_iff.mp h with
      | refl => exact h
      | hash hparts =>
          refine beq_iff.mpr (.hash (forall₂_imp_of_mem hparts fun e he f hef => ?_).flip)
          exact ⟨hef.1.symm, (ih e he).1 hef.2.1, (ih e he).2 hef.2.2⟩
  | closure =>
      cases beq_iff.mp h with
      | refl => exact h
      | closure => exact beq_iff.mpr (.closure ..)
  | function =>
      cases beq_iff.mp h with
      | refl => exact h
      | function => exact beq_iff.mpr (.function ..)
  | _ =>
      cases beq_iff.mp h
      exact h

theorem beq_trans (h₁ : (u == v) = true) (h₂ : (v == w) = true) : (u == w) = true := by
  induction u using byElements generalizing v w with
  | array elements ih =>
      cases beq_iff.mp h₁ with
      | refl => exact h₂
      | array hparts₁ =>
          cases beq_iff.mp h₂ with
          | refl => exact h₁
          | array hparts₂ =>
              exact beq_iff.mpr (.array (forall₂_trans hparts₁ hparts₂ fun u hu v w => ih u hu))
  | hash entries ih =>
      cases beq_iff.mp h₁ with
      | refl => exact h₂
      | hash hparts₁ =>
          cases beq_iff.mp h₂ with
          | refl => exact h₁
          | hash hparts₂ =>
              refine beq_iff.mpr (.hash (forall₂_trans hparts₁ hparts₂ fun e he f g hef hfg => ?_))
              exact ⟨hef.1.trans hfg.1, (ih e he).1 hef.2.1 hfg.2.1, (ih e he).2 hef.2.2 hfg.2.2⟩
  | closure =>
      cases beq_iff.mp h₁ with
      | refl => exact h₂
      | closure =>
          cases beq_iff.mp h₂ with
          | refl => exact h₁
          | closure => exact beq_iff.mpr (.closure ..)
  | function =>
      cases beq_iff.mp h₁ with
      | refl => exact h₂
      | function =>
          cases beq_iff.mp h₂ with
          | refl => exact h₁
          | function => exact beq_iff.mpr (.function ..)
  | _ =>
      cases beq_iff.mp h₁
      exact h₂

/-- Equal values cannot be told apart by their kinds, as keys, or as conditions. -/
theorem beq_agree [StringHash] (h : (v == w) = true) :
    v.kind = w.kind ∧ v.key? = w.key? ∧ v.isTruthy = w.isTruthy := by
  cases beq_iff.mp h <;> exact ⟨rfl, rfl, rfl⟩

/-! ## Hashes

Entries are kept in the order of their keys, so that equal hashes have equal entries under each key, and the
other way round. -/

/-- Equal hashes have equal entries under each key, or none. -/
theorem pair?_rel_of_hash_beq (h : (hash es == hash fs) = true) (hashKey : HashKey) :
    Option.Rel SameEntry (Dictionary.pair? hashKey es) (Dictionary.pair? hashKey fs) := by
  have hparts := sameEntries_iff.mp h
  clear h
  induction hparts with
  | nil => exact .none
  | @cons e f es fs hef _ ih =>
      rw [Dictionary.pair?_cons, Dictionary.pair?_cons, hef.1]
      split
      · exact .some hef
      · exact ih

theorem SameEntry.symm {e f : StoredKey Value × Value} (h : SameEntry e f) : SameEntry f e :=
  ⟨h.1.symm, beq_symm h.2.1, beq_symm h.2.2⟩

section

variable [StringHash] {e f : StoredKey Value × Value} {hashKey : HashKey}

/-- What is found as well in another hash does not come in front of all that is there. -/
theorem not_before_of_pair?_rel (hf : Ascending (f :: fs)) (hfs : Keyed (f :: fs))
    (h : Option.Rel SameEntry (some e) (Dictionary.pair? hashKey (f :: fs))) :
    ¬ e.1.toValue.before f.1.toValue = true := by
  intro hbefore
  cases hfound : Dictionary.pair? hashKey (f :: fs) with
  | none =>
      rw [hfound] at h
      cases h
  | some g =>
      rw [hfound] at h
      cases h with
      | some hsame =>
          obtain ⟨hg, -⟩ := Dictionary.mem_of_pair? hfound
          have heq : e.1.toValue = g.1.toValue := eq_of_beq_key (hfs g hg) hsame.2.1
          have hself : e.1.toValue.before g.1.toValue = true := by
            rcases List.mem_cons.mp hg with rfl | hg
            · exact hbefore
            · exact before_trans hbefore ((List.pairwise_cons.mp hf).1 g hg).1
          rw [heq, before_irrefl] at hself
          cases hself

/-- The first entries of two hashes have the same key if the same entries are found in them. -/
theorem toValue_eq_of_pair?_rel (he : Ascending (e :: es)) (hf : Ascending (f :: fs)) (hes : Keyed (e :: es))
    (hfs : Keyed (f :: fs))
    (h : ∀ hashKey, Option.Rel SameEntry (Dictionary.pair? hashKey (e :: es))
      (Dictionary.pair? hashKey (f :: fs))) : e.1.toValue = f.1.toValue := by
  by_contra hne
  have hehashable := hashable_iff.mpr ⟨_, hes e List.mem_cons_self⟩
  have hfhashable := hashable_iff.mpr ⟨_, hfs f List.mem_cons_self⟩
  rcases before_or_before hehashable hfhashable hne with hbefore | hbefore
  · have hrel := h e.1.hashKey
    rw [Dictionary.pair?_head] at hrel
    exact not_before_of_pair?_rel hf hfs hrel hbefore
  · have hrel := h f.1.hashKey
    rw [Dictionary.pair?_head] at hrel
    have hflip : Option.Rel SameEntry (some f) (Dictionary.pair? f.1.hashKey (e :: es)) := by
      generalize Dictionary.pair? f.1.hashKey (e :: es) = found at hrel ⊢
      cases hrel with
      | some hsame => exact .some hsame.symm
    exact not_before_of_pair?_rel he hes hflip hbefore

/-- Entries in ascending order are equal if they are found equal under every key. -/
theorem hash_beq_of_pair?_rel (hes : Ascending es) (hfs : Ascending fs) (hkeyed : Keyed es) (hkeyed' : Keyed fs)
    (h : ∀ hashKey, Option.Rel SameEntry (Dictionary.pair? hashKey es) (Dictionary.pair? hashKey fs)) :
    (hash es == hash fs) = true := by
  refine sameEntries_iff.mpr ?_
  induction es generalizing fs with
  | nil =>
      cases fs with
      | nil => exact .nil
      | cons f fs =>
          have hrel := h f.1.hashKey
          rw [Dictionary.pair?_head] at hrel
          cases hrel
  | cons e es ih =>
      cases fs with
      | nil =>
          have hrel := h e.1.hashKey
          rw [Dictionary.pair?_head] at hrel
          cases hrel
      | cons f fs =>
          obtain ⟨hekey, hkeyedrest⟩ := List.forall_mem_cons.mp hkeyed
          obtain ⟨hfkey, hkeyedrest'⟩ := List.forall_mem_cons.mp hkeyed'
          have hvalue := toValue_eq_of_pair?_rel hes hfs hkeyed hkeyed' h
          have hkey : e.1.hashKey = f.1.hashKey := Option.some.inj (hekey.symm.trans (hvalue ▸ hfkey))
          have hfirst := h e.1.hashKey
          rw [Dictionary.pair?_head, hkey, Dictionary.pair?_head] at hfirst
          cases hfirst with
          | some hsame =>
              refine .cons hsame (ih hes.of_cons hfs.of_cons hkeyedrest hkeyedrest' fun hashKey => ?_)
              by_cases heq : e.1.hashKey = hashKey
              · subst heq
                rw [hes.pair?_tail, hkey, hfs.pair?_tail]
                exact .none
              · have hrel := h hashKey
                rwa [Dictionary.pair?_cons, Dictionary.pair?_cons, if_neg heq, if_neg (hkey ▸ heq)] at hrel

end

/-! ## Hashes of pairs -/

/-- The same values, up to `==`, are the last ones under each key in two lists of pairs. -/
def SameMapping (pairs pairs' : List (Value × Value)) : Prop :=
  ∀ k : Value, k.Hashable → Option.Rel (fun v w => (v == w) = true) (lastUnder? k pairs) (lastUnder? k pairs')

/-- Some entries are in order, and they are those that some pairs make. -/
structure Represents [StringHash] (entries : Dictionary Value) (pairs : List (Value × Value)) : Prop where
  ascending : Ascending entries
  keyed : Keyed entries
  pair?_eq : ∀ hashKey, Dictionary.pair? hashKey entries = lastStored? hashKey pairs

section

variable [StringHash] {k : Value} {hashKey : HashKey}

/-- Pairs whose keys can all be keys make entries. -/
theorem exists_represents (h : ∀ pair ∈ pairs, pair.1.Hashable) :
    ∃ entries, hashOfPairs [] pairs = .ok (.hash entries) ∧ Represents entries pairs := by
  obtain ⟨entries, hbuild, hpair⟩ := hashOfPairs_of_hashable [] h
  have hordered : Ascending entries ∧ Keyed entries :=
    hashOfPairs_induction (motive := fun entries => Ascending entries ∧ Keyed entries)
      ⟨.nil, List.forall_mem_nil _⟩
      (fun _ _ _ v hk hentries => ⟨hentries.1.insert hentries.2 hk v, hentries.2.insert hk v⟩) hbuild
  exact ⟨entries, hbuild, hordered.1, hordered.2, fun hashKey => (hpair hashKey).trans Option.or_none⟩

/-- The pairs that count for a key have that key. -/
theorem eq_of_mem_lastPair? {pair : Value × Value} (hk : k.key? = some hashKey)
    (h : lastPair? k pairs = some pair) : pair.1 = k :=
  eq_of_beq_key hk (List.find?_some (p := fun pair : Value × Value => pair.1 == k) h)

theorem lastUnder?_eq_none (hk : k.key? = some hashKey) (h : k ∉ pairs.map Prod.fst) : lastUnder? k pairs = none := by
  cases hpair : lastPair? k pairs with
  | none => rw [lastUnder?, hpair, Option.map_none]
  | some pair =>
      have hmem : pair ∈ pairs := List.mem_reverse.mp (List.mem_of_find?_eq_some hpair)
      exact absurd (eq_of_mem_lastPair? hk hpair ▸ List.mem_map_of_mem hmem) h

theorem lastStored?_eq_none (h : ∀ k ∈ pairs.map Prod.fst, k.key? ≠ some hashKey) :
    lastStored? hashKey pairs = none := by
  rw [lastStored?, List.find?_eq_none.mpr, Option.map_none]
  intro pair hpair
  simpa using h pair.1 (List.mem_map_of_mem (List.mem_reverse.mp hpair))

/-- Under a key that is one of some pairs, two hashes agree if their pairs do. -/
theorem Represents.rel_iff (h : Represents es pairs) (h' : Represents fs pairs')
    (hapart : Apart (pairs.map Prod.fst ++ pairs'.map Prod.fst))
    (hmem : k ∈ pairs.map Prod.fst ++ pairs'.map Prod.fst) (hk : k.key? = some hashKey) :
    Option.Rel SameEntry (Dictionary.pair? hashKey es) (Dictionary.pair? hashKey fs) ↔
      Option.Rel (fun v w => (v == w) = true) (lastUnder? k pairs) (lastUnder? k pairs') := by
  have hfirst : Apart (k :: pairs.map Prod.fst) :=
    hapart.mono (List.cons_subset.mpr ⟨hmem, List.subset_append_left _ _⟩)
  have hsecond : Apart (k :: pairs'.map Prod.fst) :=
    hapart.mono (List.cons_subset.mpr ⟨hmem, List.subset_append_right _ _⟩)
  rw [h.pair?_eq, h'.pair?_eq, lastStored?_eq hfirst hk, lastStored?_eq hsecond hk, lastUnder?, lastUnder?]
  cases hp : lastPair? k pairs with
  | none =>
      cases hq : lastPair? k pairs' with
      | none => exact ⟨fun _ => .none, fun _ => .none⟩
      | some q => exact iff_of_false (by rintro ⟨⟩) (by rintro ⟨⟩)
  | some p =>
      cases hq : lastPair? k pairs' with
      | none => exact iff_of_false (by rintro ⟨⟩) (by rintro ⟨⟩)
      | some q =>
          have hkeys : p.1 = q.1 := (eq_of_mem_lastPair? hk hp).trans (eq_of_mem_lastPair? hk hq).symm
          constructor
          · intro hrel
            cases hrel with
            | some hsame => exact .some hsame.2.2
          · intro hrel
            cases hrel with
            | some hvalue =>
                have hkey : (p.1 == q.1) = true := hkeys ▸ beq_refl p.1
                exact .some ⟨rfl, hkey, hvalue⟩

/-- Hashes of pairs are equal exactly if the pairs say the same of each key. -/
theorem Represents.beq_iff (h : Represents es pairs) (h' : Represents fs pairs')
    (hapart : Apart (pairs.map Prod.fst ++ pairs'.map Prod.fst)) :
    (hash es == hash fs) = true ↔ SameMapping pairs pairs' := by
  constructor
  · intro hbeq k hk
    obtain ⟨hashKey, hkey⟩ := hashable_iff.mp hk
    by_cases hmem : k ∈ pairs.map Prod.fst ++ pairs'.map Prod.fst
    · exact (h.rel_iff h' hapart hmem hkey).mp (pair?_rel_of_hash_beq hbeq hashKey)
    · have hnone := not_or.mp (List.mem_append.not.mp hmem)
      rw [lastUnder?_eq_none hkey hnone.1, lastUnder?_eq_none hkey hnone.2]
      exact .none
  · intro hmapping
    refine hash_beq_of_pair?_rel h.ascending h'.ascending h.keyed h'.keyed fun hashKey => ?_
    by_cases hexists : ∃ k ∈ pairs.map Prod.fst ++ pairs'.map Prod.fst, k.key? = some hashKey
    · obtain ⟨k, hmem, hkey⟩ := hexists
      exact (h.rel_iff h' hapart hmem hkey).mpr (hmapping k (hashable_iff.mpr ⟨hashKey, hkey⟩))
    · have hnone : ∀ k ∈ pairs.map Prod.fst ++ pairs'.map Prod.fst, k.key? ≠ some hashKey :=
        fun k hmem hkey => hexists ⟨k, hmem, hkey⟩
      obtain ⟨hnone, hnone'⟩ := List.forall_mem_append.mp hnone
      rw [h.pair?_eq, h'.pair?_eq, lastStored?_eq_none hnone, lastStored?_eq_none hnone']
      exact .none

/-- **Filling a hash**: keys that can be ones make a hash, and the hashes that two lists of pairs make are equal
exactly if the same values come last under each key, as long as no two strings among the keys share their hash. -/
theorem hashOfPairs_beq_iff (h : ∀ pair ∈ pairs, pair.1.Hashable) (h' : ∀ pair ∈ pairs', pair.1.Hashable)
    (hapart : Apart (pairs.map Prod.fst ++ pairs'.map Prod.fst)) :
    ∃ v w, hashOfPairs [] pairs = .ok v ∧ hashOfPairs [] pairs' = .ok w ∧
      ((v == w) = true ↔ SameMapping pairs pairs') := by
  obtain ⟨entries, hbuild, hrepresents⟩ := exists_represents h
  obtain ⟨entries', hbuild', hrepresents'⟩ := exists_represents h'
  exact ⟨_, _, hbuild, hbuild', hrepresents.beq_iff hrepresents' hapart⟩

end

/-! ## Texts -/

/-- Neither compiled functions nor functions of programs are inside a value. -/
def IsData (w : Value) : Prop :=
  ∀ v : Value, v.Inside w → v.kind ≠ .compiledFunction ∧ v.kind ≠ .closure ∧ v.kind ≠ .function

mutual

/-- Two values are the same but for the order in which the hashes list their entries. -/
inductive Reordered : Value → Value → Prop where
  | refl (v : Value) : Reordered v v
  | array {vs ws : List Value} : ReorderedAll vs ws → Reordered (.array vs) (.array ws)
  | hash {es fs fs' : List (StoredKey Value × Value)} :
      ReorderedEntries es fs → fs.Perm fs' → Reordered (.hash es) (.hash fs')

inductive ReorderedAll : List Value → List Value → Prop where
  | nil : ReorderedAll [] []
  | cons {v w : Value} {vs ws : List Value} :
      Reordered v w → ReorderedAll vs ws → ReorderedAll (v :: vs) (w :: ws)

inductive ReorderedEntries : List (StoredKey Value × Value) → List (StoredKey Value × Value) → Prop where
  | nil : ReorderedEntries [] []
  | cons {hashKey : HashKey} {k l v w : Value} {es fs : List (StoredKey Value × Value)} :
      Reordered k l → Reordered v w → ReorderedEntries es fs →
      ReorderedEntries ((⟨hashKey, k⟩, v) :: es) ((⟨hashKey, l⟩, w) :: fs)

end

/-- Texts are sorted alike in whatever order they come. -/
theorem sortedTexts_eq_of_perm {texts texts' : List String} (h : texts.Perm texts') :
    sortedTexts texts = sortedTexts texts' := by
  have hsorted : ∀ texts : List String, (sortedTexts texts).Pairwise (· ≤ ·) := by
    intro texts
    have htrans : ∀ s t u : String, decide (s ≤ t) = true → decide (t ≤ u) = true → decide (s ≤ u) = true := by
      simpa using fun _ _ _ => String.le_trans
    have htotal : ∀ s t : String, (decide (s ≤ t) || decide (t ≤ s)) = true := by simpa using String.le_total
    exact (List.pairwise_mergeSort htrans htotal texts).imp of_decide_eq_true
  have hperm : (sortedTexts texts).Perm (sortedTexts texts') :=
    (List.mergeSort_perm _ _).trans (h.trans (List.mergeSort_perm _ _).symm)
  exact hperm.eq_of_pairwise (fun _ _ _ _ => String.le_antisymm) (hsorted _) (hsorted _)

mutual

/-- **Printing** does not show in which order a hash lists its entries. -/
theorem Reordered.text_eq : ∀ {v w : Value}, Reordered v w → v.text = w.text
  | _, _, .refl v => rfl
  | _, _, .array h => by rw [text_array, text_array, h.texts_eq]
  | _, _, .hash h hperm => by
      rw [text_hash, text_hash, h.texts_eq, sortedTexts_eq_of_perm (hperm.map entryText)]

theorem ReorderedAll.texts_eq : ∀ {vs ws : List Value}, ReorderedAll vs ws → vs.map text = ws.map text
  | _, _, .nil => rfl
  | _, _, .cons h hs => by rw [List.map_cons, List.map_cons, h.text_eq, hs.texts_eq]

theorem ReorderedEntries.texts_eq : ∀ {es fs : List (StoredKey Value × Value)}, ReorderedEntries es fs →
    es.map entryText = fs.map entryText
  | _, _, .nil => rfl
  | _, _, .cons hkey h hs => by
      rw [List.map_cons, List.map_cons, entryText, entryText, hkey.text_eq, h.text_eq, hs.texts_eq]

end

/-- Equal data is the same. -/
theorem IsData.eq_of_beq (hv : v.IsData) (h : (v == w) = true) : v = w := by
  induction v using byElements generalizing w with
  | array elements ih =>
      cases beq_iff.mp h with
      | refl => rfl
      | array hparts =>
          have heq := forall₂_imp_of_mem hparts fun v hmem w => ih v hmem fun u hu => hv u (.element hmem hu)
          rw [List.forall₂_eq_eq_eq] at heq
          rw [heq]
  | hash entries ih =>
      cases beq_iff.mp h with
      | refl => rfl
      | hash hparts =>
          have heq := forall₂_imp_of_mem hparts fun e hmem f hef =>
            Prod.ext (StoredKey.ext hef.1 ((ih e hmem).1 (fun u hu => hv u (.key hmem hu)) hef.2.1))
              ((ih e hmem).2 (fun u hu => hv u (.entry hmem hu)) hef.2.2)
          rw [List.forall₂_eq_eq_eq] at heq
          rw [heq]
  | closure => exact absurd rfl (hv _ .refl).2.1
  | function => exact absurd rfl (hv _ .refl).2.2
  | _ =>
      cases beq_iff.mp h
      rfl

/-- **Equality** is an equivalence. Equal values have the same kind, the same key and the same truth, and if they
are data they print alike, in whatever order their hashes list the entries. Hashes are equal exactly if they were
filled with the same values, up to `==`, under each key, in whatever order, as long as no two strings among the keys
share their hash. -/
theorem beq_laws [StringHash] :
    Equivalence (fun v w : Value => (v == w) = true) ∧
      (∀ v w : Value, (v == w) = true →
        v.kind = w.kind ∧ v.key? = w.key? ∧ v.isTruthy = w.isTruthy ∧
          (v.IsData → ∀ v' w', Reordered v v' → Reordered w w' → v'.text = w'.text)) ∧
      ∀ pairs pairs' : List (Value × Value), (∀ pair ∈ pairs, pair.1.Hashable) →
        (∀ pair ∈ pairs', pair.1.Hashable) → Apart (pairs.map Prod.fst ++ pairs'.map Prod.fst) →
        ∃ v w, hashOfPairs [] pairs = .ok v ∧ hashOfPairs [] pairs' = .ok w ∧
          ((v == w) = true ↔ SameMapping pairs pairs') := by
  refine ⟨⟨beq_refl, beq_symm, beq_trans⟩, fun v w h => ?_, fun pairs pairs' => hashOfPairs_beq_iff⟩
  obtain ⟨hkind, hkey, htruthy⟩ := beq_agree h
  refine ⟨hkind, hkey, htruthy, fun hdata v' w' hv hw => ?_⟩
  rw [← hv.text_eq, ← hw.text_eq, hdata.eq_of_beq h]

/-- Pairs with the keys `1`, `"k"` and once more `1`. -/
def repeatedPairs : List (Value × Value) :=
  [(.integer 1, .string "a"), (.string "k", .array [.null]), (.integer 1, .string "b")]

/-- Those of the pairs that count, in another order. -/
def countingPairs : List (Value × Value) := [(.string "k", .array [.null]), (.integer 1, .string "b")]

/-- The entries that they make. -/
def countingEntries : Dictionary Value :=
  [(⟨.integer 1, .integer 1⟩, .string "b"), (⟨.string (StringHash.hash "k"), .string "k"⟩, .array [.null])]

theorem repeatedPairs_beq :
    (∃ v w, hashOfPairs [] repeatedPairs = .ok v ∧ hashOfPairs [] countingPairs = .ok w ∧ (v == w) = true) ∧
      (hash countingEntries.reverse).text = (hash countingEntries).text := by
  obtain ⟨hequivalence, hagree, hfilled⟩ := beq_laws
  constructor
  · have hkeys : ∀ pair ∈ repeatedPairs, pair.1.Hashable := by simp [repeatedPairs, Hashable, kind]
    have hkeys' : ∀ pair ∈ countingPairs, pair.1.Hashable := by simp [countingPairs, Hashable, kind]
    have hmapping : SameMapping repeatedPairs countingPairs := by
      intro k hk
      have hlast : lastUnder? k repeatedPairs = lastUnder? k countingPairs := by
        simp only [repeatedPairs, countingPairs, lastUnder?_cons, show lastUnder? k [] = none from rfl]
        cases (integer 1 == k) <;> cases (string "k" == k) <;> rfl
      rw [hlast]
      cases lastUnder? k countingPairs with
      | none => exact .none
      | some v => exact .some (beq_refl v)
    -- there is one string among the keys
    have hapart : Apart (repeatedPairs.map Prod.fst ++ countingPairs.map Prod.fst) := by
      intro s t hs ht _
      simp only [repeatedPairs, countingPairs, List.map_cons, List.map_nil, List.cons_append, List.nil_append,
        List.mem_cons, List.not_mem_nil, or_false] at hs ht
      simp_all
    obtain ⟨v, w, hv, hw, hiff⟩ := hfilled _ _ hkeys hkeys' hapart
    exact ⟨v, w, hv, hw, hiff.mpr hmapping⟩
  · have hdata : (hash countingEntries).IsData := by
      intro v hv
      cases hv with
      | refl => exact ⟨by decide, by decide, by decide⟩
      | key hmem hinside =>
          simp only [countingEntries, List.mem_cons, List.not_mem_nil, or_false] at hmem
          rcases hmem with rfl | rfl
          all_goals
            cases hinside
            exact ⟨by decide, by decide, by decide⟩
      | entry hmem hinside =>
          simp only [countingEntries, List.mem_cons, List.not_mem_nil, or_false] at hmem
          rcases hmem with rfl | rfl
          · cases hinside
            exact ⟨by decide, by decide, by decide⟩
          · cases hinside with
            | refl => exact ⟨by decide, by decide, by decide⟩
            | element hmem hinside =>
                obtain rfl := List.mem_singleton.mp hmem
                cases hinside
                exact ⟨by decide, by decide, by decide⟩
    have hreversed : Reordered (hash countingEntries) (hash countingEntries.reverse) :=
      .hash (.cons (.refl _) (.refl _) (.cons (.refl _) (.refl _) .nil)) (List.reverse_perm _).symm
    exact (hagree _ _ (hequivalence.refl _)).2.2.2 hdata _ _ hreversed (.refl _)

end Value

end ScriptLang
