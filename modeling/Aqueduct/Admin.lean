import Aqueduct.Authz

/-!
ACL rules as `Builder.Allow` and the admin call `UpdateACL` of
`internal/admin/server.go` load them, against a table keyed by the pair of
client and topic. The engine keys its rules by one hash of both names and never
compares the names.
-/

namespace Aqueduct.Authz

open ByteStr

structure Rule where
  clientID : Bytes
  topic : Bytes
  perm : Permission
  deriving DecidableEq

def Rule.pair (r : Rule) : Bytes × Bytes := (r.clientID, r.topic)

def Rule.key (r : Rule) : UInt64 := combineHashStrings r.clientID r.topic

def buildEngine (rules : List Rule) (defaultPerm : Permission) : Engine :=
  (rules.foldl (fun b r => b.allow r.clientID r.topic r.perm) (newBuilder defaultPerm)).build

/-! ## UpdateACL -/

/-- A rule of an `UpdateACLRequest`; its permission is a text. -/
structure AclRule where
  clientID : Bytes
  topic : Bytes
  permission : Bytes
  deriving DecidableEq

/-- The switch of `UpdateACL` on the trimmed text in lower case. -/
def permissionOf (text : Bytes) : Permission :=
  let word := toLowerASCII (trimSpace text)
  if word = some (ascii "publish") then permPublish
  else if word = some (ascii "subscribe") then permSubscribe
  else if word = some (ascii "all") then permAll
  else permNone

def AclRule.compiled (r : AclRule) : Rule := ⟨r.clientID, r.topic, permissionOf r.permission⟩

inductive AdminError
  | engineNotEnabled
  deriving DecidableEq, Repr

def AdminError.text : AdminError → String
  | .engineNotEnabled => "authorization engine is not enabled"

/-- `rules[key] |= perm` on a Go map. -/
def addRule (rules : UInt64 → Option Permission) (key : UInt64) (perm : Permission) :
    UInt64 → Option Permission :=
  fun k => if k = key then some ((rules key).getD 0 ||| perm) else rules k

/-- The reloaded engine and the number of keys. -/
def updateACL (engine : Option Engine) (rules : List AclRule) :
    Except AdminError (Engine × Int32) :=
  match engine with
  | none => .error .engineNotEnabled
  | some e =>
    let newRules := rules.foldl
      (fun m r => addRule m (combineHashStrings r.clientID r.topic) (permissionOf r.permission))
      fun _ => none
    .ok (e.reload newRules, Int32.ofNat (rules.map fun r => r.compiled.key).eraseDups.length)

/-! ## What the engine holds -/

/-- The union of the permissions of the rules `p` selects, if there are any. -/
def unionOf (rules : List Rule) (p : Rule → Bool) : Option Permission :=
  let selected := rules.filter p
  if selected = [] then none else some (selected.foldl (fun perm r => perm ||| r.perm) 0)

theorem foldl_addRule (rules : List Rule) (m : UInt64 → Option Permission) (k : UInt64) :
    rules.foldl (fun m r => addRule m r.key r.perm) m k =
      if rules.filter (fun r => r.key = k) = [] then m k
      else some ((rules.filter fun r => r.key = k).foldl (fun perm r => perm ||| r.perm)
        ((m k).getD 0)) := by
  induction rules generalizing m with
  | nil => rfl
  | cons r rules ih =>
    rw [List.foldl_cons, ih]
    by_cases hr : r.key = k
    · subst hr
      by_cases hnil : rules.filter (fun r' => r'.key = r.key) = []
      · simp [addRule, hnil]
      · simp [addRule, hnil]
    · simp [addRule, hr, Ne.symm hr]

/-- The slot of a key holds the union of the rules with that key. -/
theorem loaded_rules (rules : List Rule) (k : UInt64) :
    rules.foldl (fun m r => addRule m r.key r.perm) (fun _ => none) k =
      unionOf rules fun r => r.key = k :=
  foldl_addRule rules (fun _ => none) k

theorem buildEngine_eq (rules : List Rule) (defaultPerm : Permission) :
    buildEngine rules defaultPerm =
      ⟨some fun k => unionOf rules fun r => r.key = k, defaultPerm⟩ := by
  have hloop : ∀ b : Builder, rules.foldl (fun b r => b.allow r.clientID r.topic r.perm) b =
      ⟨rules.foldl (fun m r => addRule m r.key r.perm) b.rules, b.defaultPerm⟩ := by
    induction rules with
    | nil => exact fun b => rfl
    | cons r rules ih => exact fun b => ih (b.allow r.clientID r.topic r.perm)
  rw [buildEngine, hloop, Builder.build]
  exact congrArg (fun m => Engine.mk (some m) defaultPerm) (funext (loaded_rules rules))

theorem updateACL_eq (e : Engine) (rules : List AclRule) :
    updateACL (some e) rules = .ok (buildEngine (rules.map AclRule.compiled) e.defaultPerm,
      Int32.ofNat (rules.map fun r => r.compiled.key).eraseDups.length) := by
  have hrules : rules.foldl (fun m r => addRule m (combineHashStrings r.clientID r.topic)
      (permissionOf r.permission)) (fun _ => none) =
      fun k => unionOf (rules.map AclRule.compiled) fun r => r.key = k := by
    funext k
    rw [← loaded_rules, List.foldl_map]
    rfl
  rw [buildEngine_eq, ← hrules]
  rfl

/-! ## The table keyed by pairs -/

/-- The decision of a table that is keyed by the exact pair. -/
def tableAllowed (rules : List Rule) (defaultPerm : Permission) (clientID topic : Bytes)
    (required : Permission) : Bool :=
  (unionOf rules fun r => r.pair = (clientID, topic)).getD defaultPerm &&& required ≠ 0

theorem allowed_buildEngine (rules : List Rule) (defaultPerm : Permission) (clientID topic : Bytes)
    (required : Permission) :
    allowed (buildEngine rules defaultPerm) clientID topic required =
      decide ((unionOf rules fun r => r.key = combineHashes clientID topic).getD defaultPerm &&&
        required ≠ 0) := by
  rw [buildEngine_eq]
  unfold allowed
  dsimp only
  cases unionOf rules fun r => r.key = combineHashes clientID topic <;> rfl

/-- No other pair of the list has the key of `(clientID, topic)`. -/
def OwnSlot (pairs : List (Bytes × Bytes)) (clientID topic : Bytes) : Prop :=
  ∀ p ∈ pairs, combineHashes p.1 p.2 = combineHashes clientID topic → p = (clientID, topic)

theorem allowed_eq_table {rules : List Rule} {clientID topic : Bytes}
    (h : OwnSlot (rules.map Rule.pair) clientID topic) (defaultPerm required : Permission) :
    allowed (buildEngine rules defaultPerm) clientID topic required =
      tableAllowed rules defaultPerm clientID topic required := by
  have hfilter : rules.filter (fun r => r.key = combineHashes clientID topic) =
      rules.filter (fun r => r.pair = (clientID, topic)) := by
    refine List.filter_congr fun r hr => decide_eq_decide.mpr ?_
    refine ⟨h r.pair (List.mem_map_of_mem hr), fun hpair => ?_⟩
    obtain ⟨rfl, rfl⟩ := Prod.mk.inj hpair
    rfl
  rw [allowed_buildEngine]
  unfold tableAllowed unionOf
  rw [hfilter]

theorem foldl_or_and_ne_zero (rules : List Rule) (acc required : Permission) :
    rules.foldl (fun perm r => perm ||| r.perm) acc &&& required ≠ 0 ↔
      acc &&& required ≠ 0 ∨ ∃ r ∈ rules, r.perm &&& required ≠ 0 := by
  have hor : ∀ a b c : Permission, (a ||| b) &&& c ≠ 0 ↔ a &&& c ≠ 0 ∨ b &&& c ≠ 0 := by
    intro a b c
    have hdistrib : (a ||| b) &&& c = (a &&& c) ||| (b &&& c) :=
      UInt8.eq_of_toBitVec_eq (BitVec.and_or_distrib_right ..)
    rw [hdistrib, ne_eq, UInt8.or_eq_zero_iff, not_and_or]
  induction rules generalizing acc with
  | nil => simp
  | cons r rules ih =>
    refine (ih _).trans ?_
    simp only [hor, or_assoc, List.mem_cons, exists_eq_or_imp]

theorem unionOf_allows {rules : List Rule} {p : Rule → Bool} {r : Rule} (hr : r ∈ rules)
    (hp : p r = true) (defaultPerm required : Permission) :
    (unionOf rules p).getD defaultPerm &&& required ≠ 0 ↔
      ∃ r ∈ rules, p r = true ∧ r.perm &&& required ≠ 0 := by
  have hne : rules.filter p ≠ [] := List.ne_nil_of_mem (List.mem_filter.mpr ⟨hr, hp⟩)
  unfold unionOf
  dsimp only
  rw [if_neg hne, Option.getD_some, foldl_or_and_ne_zero]
  simp [and_assoc]

theorem unionOf_denies {rules : List Rule} {p : Rule → Bool}
    (h : ∀ r ∈ rules, p r = true → r.perm = permNone) (required : Permission) :
    ¬ (unionOf rules p).getD permNone &&& required ≠ 0 := by
  have hzero : ∀ a : Permission, a = permNone → ¬ a &&& required ≠ 0 := by
    rintro a rfl
    simp [permNone]
  by_cases hex : ∃ r ∈ rules, p r = true
  · obtain ⟨r, hr, hp⟩ := hex
    rw [unionOf_allows hr hp]
    rintro ⟨r', hr', hp', hbit⟩
    exact hzero _ (h r' hr' hp') hbit
  · have hnil : rules.filter p = [] :=
      List.filter_eq_nil_iff.mpr fun r hr hp => hex ⟨r, hr, hp⟩
    unfold unionOf
    dsimp only
    rw [if_pos hnil]
    exact hzero permNone rfl

/-- A rule that grants publishing to every pair but `(clientID, topic)`. -/
def grantOthers (clientID topic : Bytes) (p : Bytes × Bytes) : AclRule :=
  ⟨p.1, p.2, ascii (if p = (clientID, topic) then "none" else "publish")⟩

theorem grantOthers_perm (clientID topic : Bytes) (p : Bytes × Bytes) :
    (grantOthers clientID topic p).compiled.perm =
      if p = (clientID, topic) then permNone else permPublish := by
  have hnone : permissionOf (ascii "none") = permNone := by decide
  have hpublish : permissionOf (ascii "publish") = permPublish := by decide
  rw [AclRule.compiled, grantOthers]
  dsimp only
  by_cases hp : p = (clientID, topic)
  · rw [if_pos hp, if_pos hp, hnone]
  · rw [if_neg hp, if_neg hp, hpublish]

/-- Another pair in the slot is enough to be let in by its rule. -/
theorem grantOthers_differs {pairs : List (Bytes × Bytes)} {clientID topic : Bytes}
    (h : ¬ OwnSlot pairs clientID topic) :
    let rules := pairs.map fun p => (grantOthers clientID topic p).compiled
    allowed (buildEngine rules permNone) clientID topic permPublish ≠
      tableAllowed rules permNone clientID topic permPublish := by
  intro rules
  simp only [OwnSlot, not_forall] at h
  obtain ⟨p, hp, hkey, hne⟩ := h
  have hmem : (grantOthers clientID topic p).compiled ∈ rules := List.mem_map_of_mem hp
  have hengine : allowed (buildEngine rules permNone) clientID topic permPublish = true := by
    rw [allowed_buildEngine, decide_eq_true_eq, unionOf_allows hmem (decide_eq_true hkey)]
    refine ⟨_, hmem, decide_eq_true hkey, ?_⟩
    rw [grantOthers_perm, if_neg hne]
    decide
  have htable : tableAllowed rules permNone clientID topic permPublish = false := by
    refine decide_eq_false (unionOf_denies (fun r hr hpair => ?_) permPublish)
    obtain ⟨q, -, rfl⟩ := List.mem_map.mp hr
    rw [grantOthers_perm]
    exact if_pos (of_decide_eq_true hpair)
  rw [hengine, htable]
  decide

/-- **Exact pairs.** The engine decides for every permission, default and query
bit like a table keyed by pairs, whether the rules come from the builder or
from `UpdateACL`, exactly when no other named pair has the queried pair's key. -/
theorem acl_exact_pair_iff (pairs : List (Bytes × Bytes)) (clientID topic : Bytes) :
    ((∀ rules : List Rule, rules.map Rule.pair = pairs → ∀ defaultPerm required,
        allowed (buildEngine rules defaultPerm) clientID topic required =
          tableAllowed rules defaultPerm clientID topic required) ↔
      OwnSlot pairs clientID topic) ∧
    ((∀ rules : List AclRule, rules.map (fun r => (r.clientID, r.topic)) = pairs →
        ∀ e required e' n, updateACL (some e) rules = .ok (e', n) →
          allowed e' clientID topic required =
            tableAllowed (rules.map AclRule.compiled) e.defaultPerm clientID topic required) ↔
      OwnSlot pairs clientID topic) := by
  have hpairs : ∀ ps : List (Bytes × Bytes),
      ps.map (fun p => (grantOthers clientID topic p).compiled.pair) = ps := List.map_id
  constructor
  · constructor
    · intro hall
      by_contra hown
      refine grantOthers_differs hown (hall _ ?_ permNone permPublish)
      rw [List.map_map]
      exact hpairs pairs
    · rintro hown rules rfl defaultPerm required
      exact allowed_eq_table hown defaultPerm required
  · constructor
    · intro hall
      by_contra hown
      have hrules := hall (pairs.map (grantOthers clientID topic))
        (by rw [List.map_map]; exact hpairs pairs) ⟨none, permNone⟩ permPublish _ _
        (updateACL_eq _ _)
      rw [List.map_map] at hrules
      exact grantOthers_differs hown hrules
    · rintro hown rules rfl e required e' n hupdate
      rw [updateACL_eq] at hupdate
      obtain ⟨rfl, -⟩ := Prod.mk.inj (Except.ok.inj hupdate)
      refine allowed_eq_table ?_ e.defaultPerm required
      rw [List.map_map]
      exact hown

/-- A rule for client `a:b` on topic `c` lets client `a` publish to `b:c`. -/
theorem separator_grants_another_client :
    (ascii "a:b", ascii "c") ≠ (ascii "a", ascii "b:c") ∧
      allowed (buildEngine [⟨ascii "a:b", ascii "c", permPublish⟩] permNone) (ascii "a")
        (ascii "b:c") permPublish = true ∧
      tableAllowed [⟨ascii "a:b", ascii "c", permPublish⟩] permNone (ascii "a") (ascii "b:c")
        permPublish = false := by
  decide +kernel

end Aqueduct.Authz
