/-
SplitsSubgraph/Ids.lean

The identifiers of the mapping: addresses, their hexadecimal text, and the
composite ids `joinIds` builds from them.

Every row of the store is addressed by a string, and the handlers build these
strings by concatenation, so all non-interference between rows rests on the
composite ids being unambiguous:

* `splitRecipientId s r`          -- `{splitAddress}:{recipientAddress}`
* `splitRecipientTokenId s r t`   -- `{splitAddress}:{recipientAddress}:{tokenAddress}`
* `withdrawalEventId tx log r`    -- `we:{txHash}:{logIndex}:{accountAddress}`

each determines its arguments.  The hypotheses on the parts are not assumed: the
text of a byte string and of an integer never contains the separator
(`Bytes.separator_notMem_toHex`, `separator_notMem_bigInt`).
-/
import SplitsSubgraph.Lib.Text

namespace SplitsSubgraph

open DelimitedText

/-- `Bytes` of graph-ts. -/
abbrev Bytes := List UInt8

/-- `Address` of graph-ts: the byte strings of length twenty. -/
structure Address where
  bytes : Bytes
  size : bytes.length = 20
deriving DecidableEq

@[ext] theorem Address.ext {a b : Address} (h : a.bytes = b.bytes) : a = b := by
  cases a; cases b; simpa using h

/-- The address all of whose bytes are `b`. -/
def Address.filled (b : UInt8) : Address := ⟨List.replicate 20 b, by simp⟩

/-- The address `ZERO_ADDRESS` is the text of. -/
def zeroAddress : Address := Address.filled 0

/-! ### Text of the parts -/

/-- `typeConversion.bytesToHex`: even an empty string is prefixed with `0x`, and
each byte is two lower-case digits. -/
def Bytes.toHex (bytes : Bytes) : String := "0x" ++ hexEncode bytes

/-- `Address.toHex`. -/
def Address.toHex (a : Address) : String := Bytes.toHex a.bytes

def PERCENTAGE_SCALE : ℤ := 1000000
def ZERO_ADDRESS : String := "0x0000000000000000000000000000000000000000"
def WITHDRAWAL_EVENT_PREFIX : String := "we"
def ID_SEPARATOR : Char := ':'

theorem toHex_zeroAddress : zeroAddress.toHex = ZERO_ADDRESS := by decide +kernel

theorem Bytes.toHex_injective : Function.Injective Bytes.toHex := by
  intro x y h
  apply hexEncode_injective
  apply String.toList_injective
  have h' := congrArg String.toList h
  simpa [Bytes.toHex] using h'

theorem Address.toHex_injective : Function.Injective Address.toHex := by
  intro a b h
  exact Address.ext (Bytes.toHex_injective h)

@[simp] theorem Address.toHex_inj {a b : Address} : a.toHex = b.toHex ↔ a = b :=
  Address.toHex_injective.eq_iff

theorem Bytes.separator_notMem_toHex (bytes : Bytes) :
    ID_SEPARATOR ∉ (Bytes.toHex bytes).toList := by
  have hdigit : ∀ n < 16, ID_SEPARATOR ≠ Nat.digitChar n := by decide
  have htail := notMem_hexEncode hdigit bytes
  simpa [Bytes.toHex, ID_SEPARATOR] using htail

theorem Address.separator_notMem_toHex (a : Address) :
    ID_SEPARATOR ∉ a.toHex.toList :=
  Bytes.separator_notMem_toHex a.bytes

/-- `BigInt.toString`: decimal text. -/
def bigIntToString (n : ℤ) : String := Int.repr n

theorem separator_notMem_bigInt (n : ℤ) :
    ID_SEPARATOR ∉ (bigIntToString n).toList :=
  notMem_repr (by decide) (by decide) n

/-! ### Composite ids -/

/-- `ids.join(ID_SEPARATOR)`. -/
def joinIds (ids : List String) : String := joinChar ID_SEPARATOR ids

/-- `id.split(ID_SEPARATOR)`. -/
def expandId (id : String) : List String := splitChar ID_SEPARATOR id

theorem expandId_joinIds {ids : List String} (hne : ids ≠ [])
    (hsep : ∀ i ∈ ids, ID_SEPARATOR ∉ i.toList) : expandId (joinIds ids) = ids :=
  splitChar_joinChar hne hsep

/-- Reading an id back and joining its parts gives the id, whatever it is. -/
theorem joinIds_expandId (id : String) : joinIds (expandId id) = id :=
  joinChar_splitChar ID_SEPARATOR id

theorem joinIds_inj {xs ys : List String} (hx : xs ≠ []) (hy : ys ≠ [])
    (hxs : ∀ i ∈ xs, ID_SEPARATOR ∉ i.toList)
    (hys : ∀ i ∈ ys, ID_SEPARATOR ∉ i.toList)
    (h : joinIds xs = joinIds ys) : xs = ys :=
  joinChar_inj hx hy hxs hys h

/-- Ids of ids are ids of all the parts. -/
theorem joinIds_flatten {groups : List (List String)} (hne : ∀ g ∈ groups, g ≠ []) :
    joinIds (groups.map joinIds) = joinIds groups.flatten :=
  joinChar_flatten ID_SEPARATOR hne

/-- Two ids with the same last part are told apart by what precedes it. -/
theorem joinIds_pair_inj {x y t : String} : joinIds [x, t] = joinIds [y, t] ↔ x = y := by
  constructor
  · intro h
    apply String.toList_injective
    have h' := congrArg String.toList h
    simpa [joinIds, joinChar] using h'
  · rintro rfl
    rfl

/-- The two stages in which the id of a token row is built. -/
theorem joinIds_nest (x y z : String) : joinIds [joinIds [x, y], z] = joinIds [x, y, z] := by
  have hz : joinIds [z] = z := by simp [joinIds, joinChar]
  have hflat : joinIds ([[x, y], [z]].map joinIds) = joinIds [[x, y], [z]].flatten :=
    joinIds_flatten (by simp)
  rwa [List.map_cons, List.map_cons, List.map_nil, hz] at hflat

/-- The id of the row that joins split `s` and recipient `r`. -/
def splitRecipientId (s r : Address) : String := joinIds [s.toHex, r.toHex]

/-- The id of the row that holds the totals of token `t` for `s` and `r`. -/
def splitRecipientTokenId (s r t : Address) : String :=
  joinIds [splitRecipientId s r, t.toHex]

/-- The id of the history row of the withdrawal of `r` logged at `(tx, log)`. -/
def withdrawalEventId (tx : Bytes) (log : ℤ) (r : Address) : String :=
  joinIds [WITHDRAWAL_EVENT_PREFIX, Bytes.toHex tx, bigIntToString log, r.toHex]

theorem splitRecipientTokenId_flat (s r t : Address) :
    splitRecipientTokenId s r t = joinIds [s.toHex, r.toHex, t.toHex] :=
  joinIds_nest s.toHex r.toHex t.toHex

@[simp] theorem splitRecipientId_inj {s r s' r' : Address} :
    splitRecipientId s r = splitRecipientId s' r' ↔ s = s' ∧ r = r' := by
  constructor
  · intro h
    have hparts := joinIds_inj (by simp) (by simp)
      (by simp [Address.separator_notMem_toHex]) (by simp [Address.separator_notMem_toHex]) h
    simpa using hparts
  · rintro ⟨rfl, rfl⟩
    rfl

@[simp] theorem splitRecipientTokenId_inj {s r t s' r' t' : Address} :
    splitRecipientTokenId s r t = splitRecipientTokenId s' r' t'
      ↔ s = s' ∧ r = r' ∧ t = t' := by
  constructor
  · intro h
    rw [splitRecipientTokenId_flat, splitRecipientTokenId_flat] at h
    have hparts := joinIds_inj (by simp) (by simp)
      (by simp [Address.separator_notMem_toHex]) (by simp [Address.separator_notMem_toHex]) h
    simpa using hparts
  · rintro ⟨rfl, rfl, rfl⟩
    rfl

@[simp] theorem withdrawalEventId_inj {tx tx' : Bytes} {log log' : ℤ} {r r' : Address} :
    withdrawalEventId tx log r = withdrawalEventId tx' log' r'
      ↔ tx = tx' ∧ log = log' ∧ r = r' := by
  have hwe : ID_SEPARATOR ∉ WITHDRAWAL_EVENT_PREFIX.toList := by decide
  have hsep : ∀ (tx : Bytes) (log : ℤ) (r : Address),
      ∀ i ∈ [WITHDRAWAL_EVENT_PREFIX, Bytes.toHex tx, bigIntToString log, r.toHex],
        ID_SEPARATOR ∉ i.toList := by
    intro tx log r
    simp [hwe, Bytes.separator_notMem_toHex, separator_notMem_bigInt,
      Address.separator_notMem_toHex]
  constructor
  · intro h
    have hparts := joinIds_inj (by simp) (by simp) (hsep tx log r) (hsep tx' log' r') h
    simpa [Bytes.toHex_injective.eq_iff, bigIntToString, Int.repr_inj] using hparts
  · rintro ⟨rfl, rfl, rfl⟩
    rfl

/-- The first component of a split recipient's id is its split. -/
theorem expandId_splitRecipientId (s r : Address) :
    expandId (splitRecipientId s r) = [s.toHex, r.toHex] :=
  expandId_joinIds (by simp) (by simp [Address.separator_notMem_toHex])

end SplitsSubgraph
