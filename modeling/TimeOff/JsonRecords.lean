import TimeOff.JsonValues

/-! Values told apart by their texts, and the texts of records that leave out what is
`undefined`. Two records with the same keys have one text only if they agree in every field. -/
namespace JsonText

deriving instance DecidableEq for Decimal, Number

section Numbers

/-- A number without the zeros at its end. -/
def stripZeros : ℕ → ℕ → ℕ
  | 0, m => m
  | fuel + 1, m => if 10 ∣ m then stripZeros fuel (m / 10) else m

theorem not_dvd_stripZeros {fuel m : ℕ} (hpos : 0 < m) (hfuel : m ≤ fuel) :
    ¬ 10 ∣ stripZeros fuel m := by
  induction fuel generalizing m with
  | zero => omega
  | succ fuel ih =>
    unfold stripZeros
    by_cases hdvd : 10 ∣ m
    · have hle : 10 ≤ m := Nat.le_of_dvd hpos hdvd
      rw [if_pos hdvd]
      apply ih
      · omega
      · omega
    · rw [if_neg hdvd]
      exact hdvd

/-- The integer `m` as its shortest digits and the place of the point after them. -/
def Number.ofNat (m : ℕ) : Number :=
  if h : 0 < m then
    .decimal ⟨false, stripZeros m m, (Nat.toDigits 10 m).length, not_dvd_stripZeros h le_rfl⟩
  else .zero

example : (Number.ofNat 1200).text = "1200".toList := by decide

end Numbers

/-- A value whose keys stand in the order they are listed in. -/
@[ext] structure JsonValue where
  val : Value
  listed : val.ordered = val

namespace JsonValue

def null : JsonValue := ⟨.null, rfl⟩

def bool (b : Bool) : JsonValue := ⟨.bool b, rfl⟩

def number (x : Number) : JsonValue := ⟨.number x, rfl⟩

def string (s : JsString) : JsonValue := ⟨.string s, rfl⟩

def emptyObject : JsonValue := ⟨.object [], rfl⟩

def stringify (v : JsonValue) : List Char := v.val.stringify

theorem stringify_inj {v w : JsonValue} (h : v.stringify = w.stringify) : v = w := by
  have hordered : v.val.ordered = w.val.ordered := Value.stringify_inj.mp h
  rw [v.listed, w.listed] at hordered
  exact JsonValue.ext hordered

@[simp] theorem string_inj {s t : JsString} : string s = string t ↔ s = t := by
  constructor
  · intro h
    exact Value.string.inj (congrArg val h)
  · exact congrArg string

end JsonValue

/-- What a test for truth makes of a value, `none` being `undefined`. -/
def isTruthy : Option JsonValue → Bool
  | none => false
  | some v =>
    match v.val with
    | .null => false
    | .bool b => b
    | .number x => x ≠ .zero
    | .string s => s ≠ []
    | .array _ | .object _ => true

/-- `===` of two values. Arrays and objects are compared by reference: no two are the same. -/
def samePrimitive : Value → Value → Bool
  | .null, .null => true
  | .bool b, .bool c => b = c
  | .number x, .number y => x = y
  | .string s, .string t => s = t
  | _, _ => false

def strictEquals : Option JsonValue → Option JsonValue → Bool
  | none, none => true
  | some v, some w => samePrimitive v.val w.val
  | _, _ => false

theorem eq_of_samePrimitive {v w : Value} (h : samePrimitive v w) : v = w := by
  fun_cases samePrimitive v w with
  | case1 => rfl
  | case2 b c => rw [of_decide_eq_true (p := b = c) h]
  | case3 x y => rw [of_decide_eq_true (p := x = y) h]
  | case4 s t => rw [of_decide_eq_true (p := s = t) h]
  | case5 => simp_all [samePrimitive]

theorem eq_of_strictEquals {v w : Option JsonValue} (h : strictEquals v w) : v = w := by
  fun_cases strictEquals v w with
  | case1 => rfl
  | case2 v w => exact congrArg some (JsonValue.ext (eq_of_samePrimitive h))
  | case3 => simp_all [strictEquals]

theorem strictEquals_string {v : Option JsonValue} {s : JsString} :
    strictEquals v (some (.string s)) ↔ v = some (.string s) := by
  constructor
  · exact eq_of_strictEquals
  · rintro rfl
    exact decide_eq_true rfl

section Records

variable {K α : Type}

/-- The fields that are not `undefined`. -/
def present (fields : List (K × Option α)) : List (K × α) :=
  fields.filterMap fun f => f.2.map fun v => (f.1, v)

@[simp] theorem present_nil : present ([] : List (K × Option α)) = [] := rfl

@[simp] theorem present_cons_none (key : K) (fields : List (K × Option α)) :
    present ((key, none) :: fields) = present fields := rfl

@[simp] theorem present_cons_some (key : K) (v : α) (fields : List (K × Option α)) :
    present ((key, some v) :: fields) = (key, v) :: present fields := rfl

theorem key_of_present {fields : List (K × Option α)} {f : K × α} (h : f ∈ present fields) :
    f.1 ∈ fields.map Prod.fst := by
  obtain ⟨g, hg, hsome⟩ := List.mem_filterMap.mp h
  obtain ⟨v, _, heq⟩ := Option.map_eq_some_iff.mp hsome
  rw [← heq]
  exact List.mem_map_of_mem hg

/-- With distinct keys, what is there and what is left out gives every field away. -/
theorem present_inj {fs gs : List (K × Option α)} (hkeys : fs.map Prod.fst = gs.map Prod.fst)
    (hnodup : (fs.map Prod.fst).Nodup) (h : present fs = present gs) : fs = gs := by
  induction fs generalizing gs with
  | nil => exact (List.map_eq_nil_iff.mp hkeys.symm).symm
  | cons f fs ih =>
    cases gs with
    | nil => exact absurd hkeys (List.cons_ne_nil _ _)
    | cons g gs =>
      obtain ⟨key, v⟩ := f
      obtain ⟨key', w⟩ := g
      have hkey : key = key' := (List.cons.inj hkeys).1
      have hrest : fs.map Prod.fst = gs.map Prod.fst := (List.cons.inj hkeys).2
      have hnew : key ∉ fs.map Prod.fst := (List.nodup_cons.mp hnodup).1
      have ih' (h : present fs = present gs) : fs = gs :=
        ih hrest (List.nodup_cons.mp hnodup).2 h
      subst hkey
      -- a key that only one of the two has would come up again among the other's later keys
      cases v with
      | none =>
        cases w with
        | none => rw [ih' h]
        | some w =>
          rw [present_cons_none, present_cons_some] at h
          have hmem : (key, w) ∈ present fs := h ▸ List.mem_cons_self
          exact absurd (key_of_present hmem) hnew
      | some v =>
        cases w with
        | none =>
          rw [present_cons_none, present_cons_some] at h
          have hmem : (key, v) ∈ present gs := h ▸ List.mem_cons_self
          rw [hrest] at hnew
          exact absurd (key_of_present hmem) hnew
        | some w =>
          rw [present_cons_some, present_cons_some] at h
          have hhead : v = w := (Prod.ext_iff.mp (List.cons.inj h).1).2
          rw [hhead, ih' (List.cons.inj h).2]

theorem ownOrder_of_names {fields : List (JsString × α)}
    (h : ∀ f ∈ fields, arrayIndex? f.1 = none) : ownOrder fields = fields := by
  unfold ownOrder
  have hindices : (fields.filter fun f => (arrayIndex? f.1).isSome) = [] := by
    apply List.filter_eq_nil_iff.mpr
    intro f hf
    rw [h f hf]
    exact Bool.false_ne_true
  have hnames : (fields.filter fun f => !(arrayIndex? f.1).isSome) = fields := by
    apply List.filter_eq_self.mpr
    intro f hf
    rw [h f hf]
    rfl
  rw [hindices, hnames]
  rfl

abbrev Record := List (JsString × Option JsonValue)

/-- `JSON.stringify` of an object literal. -/
def stringifyRecord (fields : Record) : List Char :=
  (Value.object (mapValues JsonValue.val (present fields))).stringify

/-- The keys of an object literal: no two the same, none an array index. -/
structure LiteralKeys (keys : List JsString) : Prop where
  nodup : keys.Nodup
  names : ∀ key ∈ keys, arrayIndex? key = none

theorem ordered_record {fields : Record} (h : LiteralKeys (fields.map Prod.fst)) :
    (Value.object (mapValues JsonValue.val (present fields))).ordered =
      .object (mapValues JsonValue.val (present fields)) := by
  have hvalues : mapValues (Value.rearrange ownOrder)
      (mapValues JsonValue.val (present fields)) = mapValues JsonValue.val (present fields) := by
    rw [mapValues_mapValues]
    exact mapValues_congr fun f _ => f.2.listed
  have hnames : ∀ f ∈ present fields, arrayIndex? f.1 = none :=
    fun f hf => h.names f.1 (key_of_present hf)
  unfold Value.ordered
  rw [Value.rearrange_object, hvalues, ownOrder_mapValues, ownOrder_of_names hnames]

/-- Two records with the keys of one literal have one text only if they are the same. -/
theorem stringifyRecord_inj {fs gs : Record} (hkeys : fs.map Prod.fst = gs.map Prod.fst)
    (hliteral : LiteralKeys (fs.map Prod.fst)) (h : stringifyRecord fs = stringifyRecord gs) :
    fs = gs := by
  have hordered := Value.stringify_inj.mp h
  rw [ordered_record hliteral, ordered_record (hkeys ▸ hliteral)] at hordered
  have hval : Function.Injective fun f : JsString × JsonValue => (f.1, f.2.val) := by
    intro f g hfg
    exact Prod.ext (Prod.ext_iff.mp hfg).1 (JsonValue.ext (Prod.ext_iff.mp hfg).2)
  have hpresent : present fs = present gs :=
    List.map_injective_iff.mpr hval (Value.object.inj hordered)
  exact present_inj hkeys hliteral.nodup hpresent

end Records

end JsonText
