import CardSort.Key

/-!
# Summing records with equal keys

Records arrive in key order. Of consecutive records with equal keys the first is kept and the
others are folded into it: dropped, or their numeric fields added to its own.

* `SumRule.validate` checks that a record has the fields to be added.
* `SumRule.push` takes the next record and may emit a finished one. A total that does not fit
  its field leaves both records apart.
* `SumState.pending` is the record that later ones may be folded into; `SumState.finish` emits it
  at the end.
-/

set_option autoImplicit false

namespace CardSort

/-- What happens to records whose keys compare equal. -/
inductive SumRule where
  /-- Only the first record of each key is kept. -/
  | skipDuplicates
  /-- The fields are added into the first record of each key. -/
  | addFields (fields : List Field)
deriving DecidableEq, Repr

/-- The record that is open for others to be folded into, and the counts so far. -/
structure SumState where
  pending : Option Bytes := none
  /-- Records folded into another one. -/
  summed : Nat := 0
  /-- Sums given up because a total did not fit its field. -/
  overflows : Nat := 0
deriving DecidableEq, Repr

namespace SumRule

/-- Checks that every summed field exists in the record and decodes. -/
def validate (rule : SumRule) (record : Bytes) : Except Fault Unit :=
  match rule with
  | skipDuplicates => .ok ()
  | addFields fields => fields.forM fun f => f.validate record

/-- Whether a fault says that a total does not fit. -/
def isOverflow : Fault → Bool
  | .overflow .. => true
  | _ => false

/-- Adds the fields of `record` to those of `pending`, writing the totals into `total`; `none` if
a total does not fit. -/
def addInto (pending record total : Bytes) : List Field → Except Fault (Option Bytes)
  | [] => .ok (some total)
  | f :: fields => do
    let a ← f.decimal pending
    let b ← f.decimal record
    match a.add? b with
    | none => pure none
    | some sum =>
      match (f.store sum).run total with
      | .ok _ total => addInto pending record total fields
      | .error fault _ => if isOverflow fault then pure none else throw fault

/-- Takes the next record in key order: the record that is finished by it, if there is one, and
the new state. After a fault no record is pending. -/
def push (rule : SumRule) (comparer : Comparer) (s : SumState) (record : Bytes) :
    Except Fault (Option Bytes) × SumState :=
  match s.pending with
  | none => (.ok none, { s with pending := some record })
  | some pending =>
    if comparer.compare pending record ≠ .eq then
      (.ok (some pending), { s with pending := some record })
    else
      match rule with
      | skipDuplicates => (.ok none, { s with summed := s.summed + 1 })
      | addFields fields =>
        match addInto pending record pending fields with
        | .ok (some total) =>
          (.ok none, { s with pending := some total, summed := s.summed + 1 })
        | .ok none =>
          (.ok (some pending), { s with pending := some record, overflows := s.overflows + 1 })
        | .error fault => (.error fault, { s with pending := none })

section

variable {rule : SumRule} {fields : List Field} {comparer : Comparer} {s : SumState}
  {pending record : Bytes}

theorem push_of_none (h : s.pending = none) :
    rule.push comparer s record = (.ok none, { s with pending := some record }) := by
  simp only [push, h]

/-- A record with other keys finishes the pending one. -/
theorem push_of_ne (h : s.pending = some pending) (hne : comparer.compare pending record ≠ .eq) :
    rule.push comparer s record = (.ok (some pending), { s with pending := some record }) := by
  simp only [push, h, ne_eq, hne, not_false_eq_true, if_true]

theorem push_skipDuplicates (h : s.pending = some pending)
    (heq : comparer.compare pending record = .eq) :
    skipDuplicates.push comparer s record =
      (.ok none, { s with pending := some pending, summed := s.summed + 1 }) := by
  simp only [push, h, ne_eq, heq, not_true_eq_false, if_false]

theorem push_addFields (h : s.pending = some pending)
    (heq : comparer.compare pending record = .eq) :
    (addFields fields).push comparer s record =
      match addInto pending record pending fields with
      | .ok (some total) => (.ok none, { s with pending := some total, summed := s.summed + 1 })
      | .ok none =>
        (.ok (some pending), { s with pending := some record, overflows := s.overflows + 1 })
      | .error fault => (.error fault, { s with pending := none }) := by
  simp only [push, h, ne_eq, heq, not_true_eq_false, if_false]

end

end SumRule

/-- Emits the pending record at the end. -/
def SumState.finish (s : SumState) : Option Bytes × SumState :=
  (s.pending, { s with pending := none })

theorem SumState.finish_of_pending {s : SumState} {pending : Bytes} (h : s.pending = some pending) :
    s.finish = (some pending, { s with pending := none }) := by
  rw [finish, h]

end CardSort
