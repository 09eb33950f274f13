/-
SplitsSubgraph/Validation.lean

Which saves the node accepts.  `Entity::validate` reads an entity field by
field; for the five row types of the mapping it comes down to one question,
whether every field that schema.graphql requires is set
(`SetEntity.validate_eq_ok_iff`).  The values themselves are always of the
declared kind, because each row field has one type.

From this follow the two facts about `Host.save` that the handlers need: a
complete row is saved in either mode, and in validated mode a row is rejected
exactly when it is still incomplete after merging.
-/
import SplitsSubgraph.Store

namespace SplitsSubgraph

open KeyedTable

/-- All the fields that schema.graphql requires of the row's type are set. -/
def SetEntity.Complete : SetEntity → Prop
  | .split _ row => row.distributorFee.isSome ∧ row.recipients.isSome
  | .recipient _ row => row.splits.isSome
  | .splitRecipient _ row => row.split.isSome ∧ row.recipient.isSome ∧ row.allocation.isSome
  | .splitRecipientToken _ row =>
    row.splitRecipient.isSome ∧ row.tokenAddress.isSome ∧ row.totalDistributed.isSome
      ∧ row.totalClaimed.isSome
  | .splitRecipientWithdrawEvent _ row =>
    row.split.isSome ∧ row.recipient.isSome ∧ row.tokenAddress.isSome ∧ row.value.isSome
      ∧ row.timestamp.isSome ∧ row.transactionHash.isSome

/-! ### Attributes -/

theorem lookup_entityAttr {α : Type} (name name' : String) (wrap : α → Value) (v : Option α) :
    (entityAttr name' wrap v).lookup name = if name = name' then v.map wrap else none := by
  cases v with
  | none => simp [entityAttr]
  | some a =>
    by_cases h : name = name'
    · simp [entityAttr, h]
    · have hne : (name == name') = false := beq_false_of_ne h
      simp [entityAttr, List.lookup, h, hne]

@[simp] theorem lookup_stringAttr (name name' : String) (v : Option String) :
    (stringAttr name' v).lookup name = if name = name' then v.map Value.string else none :=
  lookup_entityAttr name name' Value.string v

@[simp] theorem lookup_bigIntAttr (name name' : String) (v : Option ℤ) :
    (bigIntAttr name' v).lookup name = if name = name' then v.map Value.bigInt else none :=
  lookup_entityAttr name name' Value.bigInt v

@[simp] theorem lookup_stringListAttr (name name' : String) (v : Option (List String)) :
    (stringListAttr name' v).lookup name
      = if name = name' then v.map (fun l => Value.list (l.map Value.string)) else none :=
  lookup_entityAttr name name' _ v

/-! ### Fields -/

section fields

variable {entityType entityId name : String} {entity : Entity}

theorem validateFields_eq_ok_iff {fields : List Field} :
    validateFields schema entityType entityId entity fields = .ok () ↔
      ∀ f ∈ fields, validateField schema entityType entityId entity f = .ok () := by
  induction fields with
  | nil => simp [validateFields]
  | cons f fields ih =>
    rcases e : validateField schema entityType entityId entity f with m | ⟨⟩ <;>
      simp [validateFields, e, ih]

theorem validateField_string (type : String) {v : Option String}
    (h : entity.lookup name = v.map Value.string)
    (ht : scalarValueType schema (.nonNull (.named type)) = .string) :
    validateField schema entityType entityId entity (requiredField name type) = .ok ()
      ↔ v.isSome := by
  cases v <;>
    simp [validateField, requiredField, h, ht, FieldType.isList, FieldType.isNonNull,
      Value.isAssignable, Value.isScalarAssignable]

theorem validateField_bigInt (type : String) {v : Option ℤ}
    (h : entity.lookup name = v.map Value.bigInt)
    (ht : scalarValueType schema (.nonNull (.named type)) = .bigInt) :
    validateField schema entityType entityId entity (requiredField name type) = .ok ()
      ↔ v.isSome := by
  cases v <;>
    simp [validateField, requiredField, h, ht, FieldType.isList, FieldType.isNonNull,
      Value.isAssignable, Value.isScalarAssignable]

theorem validateField_stringList (type : String) {v : Option (List String)}
    (h : entity.lookup name = v.map fun l => Value.list (l.map Value.string))
    (ht : scalarValueType schema (.nonNull (.list (.nonNull (.named type)))) = .string) :
    validateField schema entityType entityId entity (requiredListField name type) = .ok ()
      ↔ v.isSome := by
  cases v with
  | none => simp [validateField, requiredListField, h, FieldType.isNonNull]
  | some l =>
    -- no element of a list of strings is rejected
    have hfind : ((l.map Value.string).zipIdx.find?
        fun e => !e.1.isScalarAssignable .string) = none := by
      rw [List.find?_eq_none]
      rintro ⟨v, i⟩ hmem
      obtain ⟨s, -, rfl⟩ := List.mem_map.mp (List.fst_mem_of_mem_zipIdx hmem)
      simp [Value.isScalarAssignable]
    have hall : (Value.list (l.map Value.string)).isAssignable .string true = true := by
      simp [Value.isAssignable, Value.isScalarAssignable]
    simp [validateField, requiredListField, h, ht, hfind, hall, FieldType.isList]

theorem validateField_derived (type : String) (h : entity.lookup name = none) :
    validateField schema entityType entityId entity (derivedField name type) = .ok () := by
  simp [validateField, derivedField, h]

end fields

/-! ### The five row types -/

theorem validate_split (id : String) (row : Split) :
    (SetEntity.split id row).validate = .ok () ↔ (SetEntity.split id row).Complete := by
  have hid : (row.entity id).lookup "id" = (some id).map Value.string := rfl
  have hfee : (row.entity id).lookup "distributorFee" = row.distributorFee.map Value.bigInt := by
    simp [Split.entity, List.lookup_cons, List.lookup_append]
  have hrec : (row.entity id).lookup "recipients"
      = row.recipients.map fun l => Value.list (l.map Value.string) := by
    simp [Split.entity, List.lookup_cons, List.lookup_append]
  have hder : (row.entity id).lookup "withdrawEvents" = none := by
    simp [Split.entity, List.lookup_cons, List.lookup_append]
  show validateFields schema "Split" id (row.entity id) _ = .ok () ↔ _
  simp only [validateFields_eq_ok_iff, List.forall_mem_cons, List.not_mem_nil,
    IsEmpty.forall_iff, implies_true, validateField_string "ID" hid rfl,
    validateField_bigInt "BigInt" hfee rfl,
    validateField_stringList "SplitRecipient" hrec rfl,
    validateField_derived "SplitRecipientWithdrawEvent" hder,
    Option.isSome_some, true_and, and_true, SetEntity.Complete]

theorem validate_recipient (id : String) (row : Recipient) :
    (SetEntity.recipient id row).validate = .ok () ↔ (SetEntity.recipient id row).Complete := by
  have hid : (row.entity id).lookup "id" = (some id).map Value.string := rfl
  have hsplits : (row.entity id).lookup "splits"
      = row.splits.map fun l => Value.list (l.map Value.string) := by
    simp [Recipient.entity, List.lookup_cons]
  show validateFields schema "Recipient" id (row.entity id) _ = .ok () ↔ _
  simp only [validateFields_eq_ok_iff, List.forall_mem_cons, List.not_mem_nil,
    IsEmpty.forall_iff, implies_true, validateField_string "ID" hid rfl,
    validateField_stringList "SplitRecipient" hsplits rfl,
    Option.isSome_some, true_and, and_true, SetEntity.Complete]

theorem validate_splitRecipient (id : String) (row : SplitRecipient) :
    (SetEntity.splitRecipient id row).validate = .ok ()
      ↔ (SetEntity.splitRecipient id row).Complete := by
  have hid : (row.entity id).lookup "id" = (some id).map Value.string := rfl
  have hsplit : (row.entity id).lookup "split" = row.split.map Value.string := by
    simp [SplitRecipient.entity, List.lookup_cons, List.lookup_append]
  have hrecipient : (row.entity id).lookup "recipient" = row.recipient.map Value.string := by
    simp [SplitRecipient.entity, List.lookup_cons, List.lookup_append]
  have hallocation : (row.entity id).lookup "allocation" = row.allocation.map Value.bigInt := by
    simp [SplitRecipient.entity, List.lookup_cons, List.lookup_append]
  have hder : (row.entity id).lookup "tokens" = none := by
    simp [SplitRecipient.entity, List.lookup_cons, List.lookup_append]
  show validateFields schema "SplitRecipient" id (row.entity id) _ = .ok () ↔ _
  simp only [validateFields_eq_ok_iff, List.forall_mem_cons, List.not_mem_nil,
    IsEmpty.forall_iff, implies_true, validateField_string "ID" hid rfl,
    validateField_string "Split" hsplit rfl, validateField_string "Recipient" hrecipient rfl,
    validateField_bigInt "BigInt" hallocation rfl,
    validateField_derived "SplitRecipientToken" hder,
    Option.isSome_some, true_and, and_true, SetEntity.Complete]

theorem validate_splitRecipientToken (id : String) (row : SplitRecipientToken) :
    (SetEntity.splitRecipientToken id row).validate = .ok ()
      ↔ (SetEntity.splitRecipientToken id row).Complete := by
  have hid : (row.entity id).lookup "id" = (some id).map Value.string := rfl
  have hjoin : (row.entity id).lookup "splitRecipient"
      = row.splitRecipient.map Value.string := by
    simp [SplitRecipientToken.entity, List.lookup_cons, List.lookup_append]
  have htoken : (row.entity id).lookup "tokenAddress" = row.tokenAddress.map Value.string := by
    simp [SplitRecipientToken.entity, List.lookup_cons, List.lookup_append]
  have hdist : (row.entity id).lookup "totalDistributed"
      = row.totalDistributed.map Value.bigInt := by
    simp [SplitRecipientToken.entity, List.lookup_cons, List.lookup_append]
  have hclaim : (row.entity id).lookup "totalClaimed" = row.totalClaimed.map Value.bigInt := by
    simp [SplitRecipientToken.entity, List.lookup_cons, List.lookup_append]
  show validateFields schema "SplitRecipientToken" id (row.entity id) _ = .ok () ↔ _
  simp only [validateFields_eq_ok_iff, List.forall_mem_cons, List.not_mem_nil,
    IsEmpty.forall_iff, implies_true, validateField_string "ID" hid rfl,
    validateField_string "SplitRecipient" hjoin rfl, validateField_string "String" htoken rfl,
    validateField_bigInt "BigInt" hdist rfl, validateField_bigInt "BigInt" hclaim rfl,
    Option.isSome_some, true_and, and_true, SetEntity.Complete]

theorem validate_splitRecipientWithdrawEvent (id : String) (row : SplitRecipientWithdrawEvent) :
    (SetEntity.splitRecipientWithdrawEvent id row).validate = .ok ()
      ↔ (SetEntity.splitRecipientWithdrawEvent id row).Complete := by
  have hid : (row.entity id).lookup "id" = (some id).map Value.string := rfl
  have hsplit : (row.entity id).lookup "split" = row.split.map Value.string := by
    simp [SplitRecipientWithdrawEvent.entity, List.lookup_cons, List.lookup_append]
  have hrecipient : (row.entity id).lookup "recipient" = row.recipient.map Value.string := by
    simp [SplitRecipientWithdrawEvent.entity, List.lookup_cons, List.lookup_append]
  have htoken : (row.entity id).lookup "tokenAddress" = row.tokenAddress.map Value.string := by
    simp [SplitRecipientWithdrawEvent.entity, List.lookup_cons, List.lookup_append]
  have hvalue : (row.entity id).lookup "value" = row.value.map Value.bigInt := by
    simp [SplitRecipientWithdrawEvent.entity, List.lookup_cons, List.lookup_append]
  have htime : (row.entity id).lookup "timestamp" = row.timestamp.map Value.bigInt := by
    simp [SplitRecipientWithdrawEvent.entity, List.lookup_cons, List.lookup_append]
  have htx : (row.entity id).lookup "transactionHash" = row.transactionHash.map Value.string := by
    simp [SplitRecipientWithdrawEvent.entity, List.lookup_cons, List.lookup_append]
  show validateFields schema "SplitRecipientWithdrawEvent" id (row.entity id) _ = .ok () ↔ _
  simp only [validateFields_eq_ok_iff, List.forall_mem_cons, List.not_mem_nil,
    IsEmpty.forall_iff, implies_true, validateField_string "ID" hid rfl,
    validateField_string "Split" hsplit rfl, validateField_string "Recipient" hrecipient rfl,
    validateField_string "String" htoken rfl, validateField_bigInt "BigInt" hvalue rfl,
    validateField_bigInt "BigInt" htime rfl, validateField_string "String" htx rfl,
    Option.isSome_some, true_and, and_true, SetEntity.Complete]

/-- **Validation accepts exactly the complete rows.** -/
theorem SetEntity.validate_eq_ok_iff (s : SetEntity) : s.validate = .ok () ↔ s.Complete := by
  cases s with
  | split id row => exact validate_split id row
  | recipient id row => exact validate_recipient id row
  | splitRecipient id row => exact validate_splitRecipient id row
  | splitRecipientToken id row => exact validate_splitRecipientToken id row
  | splitRecipientWithdrawEvent id row => exact validate_splitRecipientWithdrawEvent id row

/-! ### Saving -/

/-- A complete row is saved, whether or not the node validates. -/
theorem Host.save_of_complete {h : Host} {s : SetEntity} (hs : s.Complete) :
    h.save s = .ok (h.put s) := by
  have hv := s.validate_eq_ok_iff.mpr hs
  cases e : h.mode with
  | plain => simp only [Host.save, e]
  | validated => simp only [Host.save, e, hv]

theorem Host.save_plain {h : Host} {s : SetEntity} (hm : h.mode = .plain) :
    h.save s = .ok (h.put s) := by
  simp only [Host.save, hm]

/-- A row that is incomplete even when merged is rejected by a validating node. -/
theorem Host.save_rejected {h : Host} {s : SetEntity} (hm : h.mode = .validated)
    (hs : ¬ s.Complete) (hmerged : ¬ (s.merged h.store).Complete) :
    ∃ message, h.save s = .error (.invalidEntity message) := by
  rcases e : s.validate with m | ⟨⟩
  · rcases e' : (s.merged h.store).validate with m' | ⟨⟩
    · exact ⟨m', by simp only [Host.save, hm, e, e']⟩
    · exact absurd ((s.merged h.store).validate_eq_ok_iff.mp e') hmerged
  · exact absurd (s.validate_eq_ok_iff.mp e) hs

end SplitsSubgraph
