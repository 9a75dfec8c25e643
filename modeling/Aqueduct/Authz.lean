import Aqueduct.Lib.Bytes

/-!
The ACL engine of `internal/authz/acl.go`: permissions are bit masks, rules
are keyed by a 64-bit FNV-1a hash of the client id, a colon and the topic.
A Go map is a partial function; a nil rule pointer is the outer `none`.
-/

namespace Aqueduct.Authz

open ByteStr

abbrev Permission := UInt8

def permNone : Permission := 0
def permPublish : Permission := 1
def permSubscribe : Permission := 2
def permAll : Permission := permPublish ||| permSubscribe

def offset64 : UInt64 := 14695981039346656037
def prime64 : UInt64 := 1099511628211

/-- One round of FNV-1a. -/
def hashByte (hash : UInt64) (b : UInt8) : UInt64 := (hash ^^^ b.toUInt64) * prime64

def hashBytes (hash : UInt64) (bs : Bytes) : UInt64 := bs.foldl hashByte hash

def combineHashes (clientID topicBytes : Bytes) : UInt64 :=
  hashBytes (hashByte (hashBytes offset64 clientID) 58) topicBytes

/-- The same hash over two Go strings. -/
def combineHashStrings (clientID topic : Bytes) : UInt64 := combineHashes clientID topic

structure Engine where
  rules : Option (UInt64 → Option Permission)
  defaultPerm : Permission

def allowed (e : Engine) (clientID topicBytes : Bytes) (required : Permission) : Bool :=
  match e.rules with
  | none => e.defaultPerm &&& required ≠ 0
  | some rulesMap =>
    match rulesMap (combineHashes clientID topicBytes) with
    | none => e.defaultPerm &&& required ≠ 0
    | some perm => perm &&& required ≠ 0

/-- The rules are replaced, the default stays. -/
def Engine.reload (e : Engine) (newRules : UInt64 → Option Permission) : Engine :=
  { e with rules := some newRules }

structure Builder where
  rules : UInt64 → Option Permission
  defaultPerm : Permission

def newBuilder (defaultPerm : Permission) : Builder := ⟨fun _ => none, defaultPerm⟩

def Builder.allow (b : Builder) (clientID topic : Bytes) (perm : Permission) : Builder :=
  let key := combineHashStrings clientID topic
  { b with rules := fun k => if k = key then some ((b.rules key).getD 0 ||| perm) else b.rules k }

def Builder.build (b : Builder) : Engine := ⟨some b.rules, b.defaultPerm⟩

end Aqueduct.Authz
