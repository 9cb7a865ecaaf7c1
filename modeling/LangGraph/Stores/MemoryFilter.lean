import LangGraph.Lib.Binary64
import LangGraph.Stores.Texts

/- The filters of `InMemoryStore`.

   Correspondence (source ↔ Lean):
     `==` on JSON values                            ↔ `pyEq`
     `float(value)`                                 ↔ `pyFloat`
     `_apply_operator`, `_compare_values`           ↔ `applyOperator`, `compareValues`
     `filter_func` of `_filter_items`               ↔ `filterFunc`
   `none` is an exception; `all(…)` stops at the first `False`. `float` of a
   string reads ASCII digits. -/
namespace LangGraph.Stores

/-- The value of a number; a boolean is one. -/
def Json.number? : Json → Option Binary64
  | .bool b => some (.fin (if b then 1 else 0))
  | .int n => some (.fin n)
  | .float bits => some (Binary64.ofBits bits)
  | _ => none

mutual
/-- `==`; two numbers are equal by value, two dicts whatever their order. -/
def pyEq : Json → Json → Bool
  | .null, .null => true
  | .str a, .str b => a == b
  | .list a, .list b => pyEqList a b
  | .dict a, .dict b => a.length == b.length && pyEqDict a b
  | a, b =>
    match a.number?, b.number? with
    | some x, some y => x.eq y
    | _, _ => false

def pyEqList : List Json → List Json → Bool
  | [], [] => true
  | a :: as, b :: bs => pyEq a b && pyEqList as bs
  | _, _ => false

def pyEqDict : List (String × Json) → List (String × Json) → Bool
  | [], _ => true
  | (k, a) :: as, bs =>
    (match bs.lookup k with
      | some b => pyEq a b
      | none => false) && pyEqDict as bs
end

/-- A number is equal to the numbers of its value, and to nothing else. -/
theorem pyEq_of_number {a : Json} {x : Binary64} (ha : a.number? = some x) (b : Json) :
    pyEq a b = true ↔ ∃ y, b.number? = some y ∧ x.eq y = true := by
  have hfall : pyEq a b = match a.number?, b.number? with
      | some x, some y => x.eq y
      | _, _ => false := by
    cases a <;> first | (cases ha; done) | (cases b <;> simp only [pyEq])
  rw [hfall, ha]
  cases b.number? <;> simp

theorem pyEq_trans_of_number {a b c : Json} {x : Binary64} (ha : a.number? = some x)
    (h : pyEq a b = true) (h' : pyEq b c = true) : pyEq a c = true := by
  obtain ⟨y, hb, hxy⟩ := (pyEq_of_number ha b).mp h
  obtain ⟨z, hc, hyz⟩ := (pyEq_of_number hb c).mp h'
  exact (pyEq_of_number ha c).mpr ⟨z, hc, Binary64.eq_trans hxy hyz⟩

theorem exists_lookup_of_pyEqDict {k : String} {b : Json} : ∀ {bs cs : List (String × Json)},
    pyEqDict bs cs = true → bs.lookup k = some b → ∃ c, cs.lookup k = some c ∧ pyEq b c = true
  | [], _, _, h => nomatch h
  | (l, b') :: bs, cs, h, hb => by
    simp only [pyEqDict, Bool.and_eq_true] at h
    rw [List.lookup_cons] at hb
    split at hb
    · next hkl =>
      obtain rfl := Option.some.inj hb
      obtain rfl : k = l := eq_of_beq hkl
      cases hc : cs.lookup k with
      | none => simp [hc] at h
      | some c => exact ⟨c, rfl, by simpa [hc] using h.1⟩
    · exact exists_lookup_of_pyEqDict h.2 hb

mutual
/-- `==` is transitive. -/
theorem pyEq_trans : ∀ {a b c : Json}, pyEq a b = true → pyEq b c = true → pyEq a c = true
  | .bool p, b, c, h, h' => pyEq_trans_of_number rfl h h'
  | .int n, b, c, h, h' => pyEq_trans_of_number rfl h h'
  | .float bits, b, c, h, h' => pyEq_trans_of_number rfl h h'
  | .null, b, c, h, h' => by
    cases b with
    | null => exact h'
    | _ => simp [pyEq, Json.number?] at h
  | .str s, b, c, h, h' => by
    cases b with
    | str t =>
      simp only [pyEq, beq_iff_eq] at h
      rw [h]
      exact h'
    | _ => simp [pyEq, Json.number?] at h
  | .list xs, b, c, h, h' => by
    cases b with
    | list ys =>
      cases c with
      | list zs => exact pyEqList_trans h h'
      | _ => simp [pyEq, Json.number?] at h'
    | _ => simp [pyEq, Json.number?] at h
  | .dict xs, b, c, h, h' => by
    cases b with
    | dict ys =>
      cases c with
      | dict zs =>
        simp only [pyEq, Bool.and_eq_true, beq_iff_eq] at h h' ⊢
        exact ⟨h.1.trans h'.1, pyEqDict_trans h.2 h'.2⟩
      | _ => simp [pyEq, Json.number?] at h'
    | _ => simp [pyEq, Json.number?] at h

theorem pyEqList_trans : ∀ {as bs cs : List Json}, pyEqList as bs = true → pyEqList bs cs = true →
    pyEqList as cs = true
  | [], [], _, _, h' => h'
  | [], _ :: _, _, h, _ => by simp [pyEqList] at h
  | _ :: _, [], _, h, _ => by simp [pyEqList] at h
  | _ :: _, _ :: _, [], _, h' => by simp [pyEqList] at h'
  | a :: as, b :: bs, c :: cs, h, h' => by
    simp only [pyEqList, Bool.and_eq_true] at h h' ⊢
    exact ⟨pyEq_trans h.1 h'.1, pyEqList_trans h.2 h'.2⟩

theorem pyEqDict_trans : ∀ {as bs cs : List (String × Json)}, pyEqDict as bs = true →
    pyEqDict bs cs = true → pyEqDict as cs = true
  | [], _, _, _, _ => rfl
  | (k, a) :: as, bs, cs, h, h' => by
    simp only [pyEqDict, Bool.and_eq_true] at h ⊢
    refine ⟨?_, pyEqDict_trans h.2 h'⟩
    cases hb : bs.lookup k with
    | none => simp [hb] at h
    | some b =>
      have hab : pyEq a b = true := by simpa [hb] using h.1
      obtain ⟨c, hc, hbc⟩ := exists_lookup_of_pyEqDict h' hb
      rw [hc]
      exact pyEq_trans hab hbc

end

/-- A digit, and then digits with single underscores between them: the value,
    the number of digits and the rest. -/
def digitPart : List Char → Nat → Nat → Nat × Nat × List Char
  | '_' :: c :: rest, n, count =>
    if c.isDigit ∧ count ≠ 0 then digitPart rest (10 * n + (c.toNat - '0'.toNat)) (count + 1)
    else (n, count, '_' :: c :: rest)
  | c :: rest, n, count =>
    if c.isDigit then digitPart rest (10 * n + (c.toNat - '0'.toNat)) (count + 1)
    else (n, count, c :: rest)
  | [], n, count => (n, count, [])

/-- The exponent of a literal: the rest after the digits. -/
def exponentPart : List Char → Option Int
  | [] => some 0
  | c :: rest =>
    if c = 'e' ∨ c = 'E' then
      let (negative, digits) := match rest with
        | '-' :: digits => (true, digits)
        | '+' :: digits => (false, digits)
        | digits => (false, digits)
      match digitPart digits 0 0 with
      | (n, count, []) => if count = 0 then none else some (if negative then -(n : Int) else n)
      | _ => none
    else none

/-- A decimal literal without its sign. -/
def decimalOf (chars : List Char) : Option ℚ :=
  let (n, count, rest) := digitPart chars 0 0
  let (m, fraction, rest) := match rest with
    | '.' :: rest => digitPart rest 0 0
    | rest => (0, 0, rest)
  if count + fraction = 0 then none
  else (exponentPart rest).map fun e => ((n : ℚ) + (m : ℚ) / 10 ^ fraction) * 10 ^ e

/-- `float(s)` -/
def floatOfStr (s : String) : Option Binary64 :=
  let (negative, chars) := match strip s.toList with
    | '-' :: chars => (true, chars)
    | '+' :: chars => (false, chars)
    | chars => (false, chars)
  let lower := chars.map Char.toLower
  if lower = "inf".toList ∨ lower = "infinity".toList then some (.inf negative)
  else if lower = "nan".toList then some .nan
  else (decimalOf chars).map fun q => Binary64.ofRat (if negative then -q else q)

/-- `float(value)` -/
def pyFloat : Json → Option Binary64
  | .bool b => some (.fin (if b then 1 else 0))
  | .int n =>
    match Binary64.ofRat n with
    | .inf _ => none
    | x => some x
  | .float bits => some (Binary64.ofBits bits)
  | .str s => floatOfStr s
  | _ => none

/-- `float(value) < float(op_value)` and the like. -/
def floatCompare (compare : Binary64 → Binary64 → Bool) (value opValue : Json) : Option Bool :=
  (pyFloat value).bind fun x => (pyFloat opValue).map fun y => compare x y

/-- `_apply_operator` -/
def applyOperator (value : Json) (operator : String) (opValue : Json) : Option Bool :=
  if operator = "$eq" then some (pyEq value opValue)
  else if operator = "$gt" then floatCompare (fun x y => y.lt x) value opValue
  else if operator = "$gte" then floatCompare (fun x y => y.le x) value opValue
  else if operator = "$lt" then floatCompare Binary64.lt value opValue
  else if operator = "$lte" then floatCompare Binary64.le value opValue
  else if operator = "$ne" then some (!pyEq value opValue)
  else none

/-- `all(test(x) for x in xs)` -/
def allLazily {α : Type} (test : α → Option Bool) : List α → Option Bool
  | [] => some true
  | x :: xs =>
    match test x with
    | some true => allLazily test xs
    | result => result

/-- `item_value.get(k)` -/
def Json.field (entries : List (String × Json)) (k : String) : Json := (entries.lookup k).getD .null

/-- `k.startswith("$")` -/
def isOperator (k : String) : Bool := k.toList.head? == some '$'

mutual
/-- `_compare_values` -/
def compareValues : Json → Json → Option Bool
  | item, .dict ops =>
    if ops.any fun o => isOperator o.1 then
      allLazily (fun o => applyOperator item o.1 o.2) ops
    else
      match item with
      | .dict entries => compareEntries entries ops
      | _ => some false
  | item, .list fs =>
    match item with
    | .list xs => if xs.length = fs.length then compareItems xs fs else some false
    | _ => some false
  | item, value => some (pyEq item value)

def compareEntries : List (String × Json) → List (String × Json) → Option Bool
  | _, [] => some true
  | entries, (k, f) :: fs =>
    match compareValues (Json.field entries k) f with
    | some true => compareEntries entries fs
    | result => result

def compareItems : List Json → List Json → Option Bool
  | x :: xs, f :: fs =>
    match compareValues x f with
    | some true => compareItems xs fs
    | result => result
  | _, _ => some true
end

/-- `filter_func`, on the entries of the item's value. -/
def filterFunc (filter : Option (List (String × Json))) (entries : List (String × Json)) :
    Option Bool :=
  allLazily (fun f => compareValues (Json.field entries f.1) f.2) (filter.getD [])

end LangGraph.Stores
