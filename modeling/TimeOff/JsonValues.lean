import TimeOff.JsonScalars
import Mathlib.Data.List.Lex
import Mathlib.Data.List.Sort
import Mathlib.Data.List.Perm.Basic
import Mathlib.Order.Fin.Basic

/-! JSON values with the keys of their objects in the order they were set, the order
ECMAScript lists them in, and the text of `JSON.stringify`. Two values are the same up to the
order of keys exactly if sorting the keys of both gives one value. -/
namespace JsonText

inductive Value
  | null
  | bool (b : Bool)
  | number (x : Number)
  | string (s : JsString)
  | array (items : List Value)
  | object (fields : List (JsString × Value))

namespace Value

@[elab_as_elim]
theorem induct {motive : Value → Prop} (null : motive .null) (bool : ∀ b, motive (.bool b))
    (number : ∀ x, motive (.number x)) (string : ∀ s, motive (.string s))
    (array : ∀ items, (∀ v ∈ items, motive v) → motive (.array items))
    (object : ∀ fields, (∀ f ∈ fields, motive f.2) → motive (.object fields)) (v : Value) :
    motive v := by
  apply @Value.rec motive (fun items => ∀ v ∈ items, motive v)
    (fun fields => ∀ f ∈ fields, motive f.2)
    (fun f => motive f.2) null bool number string array object
  · simp
  · exact fun _ _ hv hitems => List.forall_mem_cons.mpr ⟨hv, hitems⟩
  · simp
  · exact fun _ _ hf hfields => List.forall_mem_cons.mpr ⟨hf, hfields⟩
  · exact fun _ _ hv => hv

end Value

section KeyOrder

variable {α β γ : Type}

/-- The same keys over other values. -/
def mapValues (g : α → β) (fields : List (JsString × α)) : List (JsString × β) :=
  fields.map fun f => (f.1, g f.2)

/-- The number a key stands for, if it is an array index. -/
def arrayIndex? (key : JsString) : Option ℕ :=
  if key ≠ [] ∧ (key.all fun u => 0x30 ≤ u.val && u.val ≤ 0x39) ∧
      (key.head? = some 0x30 → key = [0x30]) then
    let index := key.foldl (fun n u => 10 * n + (u.val - 0x30)) 0
    if index < 0xFFFFFFFF then some index else none
  else none

/-- `OrdinaryOwnPropertyKeys`: the array indices in ascending order, then the other keys in the
order they were set. -/
def ownOrder (fields : List (JsString × α)) : List (JsString × α) :=
  (fields.filter fun f => (arrayIndex? f.1).isSome).insertionSort
      (fun f g => (arrayIndex? f.1).getD 0 ≤ (arrayIndex? g.1).getD 0) ++
    fields.filter fun f => !(arrayIndex? f.1).isSome

theorem mapValues_congr {g h : α → β} {fields : List (JsString × α)}
    (heq : ∀ f ∈ fields, g f.2 = h f.2) : mapValues g fields = mapValues h fields :=
  List.map_congr_left fun f hf => Prod.ext rfl (heq f hf)

theorem mapValues_mapValues (h : β → γ) (g : α → β) (fields : List (JsString × α)) :
    mapValues h (mapValues g fields) = mapValues (h ∘ g) fields :=
  List.map_map

theorem mapValues_perm {g : α → β} {fields fields' : List (JsString × α)}
    (h : fields.Perm fields') : (mapValues g fields).Perm (mapValues g fields') :=
  h.map _

theorem ownOrder_perm (fields : List (JsString × α)) : (ownOrder fields).Perm fields :=
  ((List.perm_insertionSort _ _).append_right _).trans (List.filter_append_perm _ fields)

theorem ownOrder_mapValues (g : α → β) (fields : List (JsString × α)) :
    ownOrder (mapValues g fields) = mapValues g (ownOrder fields) := by
  unfold ownOrder mapValues
  rw [List.map_append, List.filter_map, List.filter_map,
    List.map_insertionSort _ (fun f g => (arrayIndex? f.1).getD 0 ≤ (arrayIndex? g.1).getD 0)]
  · rfl
  · exact fun _ _ _ _ => Iff.rfl

/-- The fields by their keys, which are compared by code units. -/
def sortByKey (fields : List (JsString × α)) : List (JsString × α) :=
  fields.insertionSort fun f g => f.1 ≤ g.1

theorem sortByKey_perm (fields : List (JsString × α)) : (sortByKey fields).Perm fields :=
  List.perm_insertionSort _ fields

theorem sortByKey_mapValues (g : α → β) (fields : List (JsString × α)) :
    sortByKey (mapValues g fields) = mapValues g (sortByKey fields) := by
  unfold sortByKey mapValues
  rw [List.map_insertionSort _ fun f g => f.1 ≤ g.1]
  exact fun _ _ _ _ => Iff.rfl

/-- With distinct keys there is one sorted order. -/
theorem sortByKey_unique {fs gs : List (JsString × α)} (hkeys : (fs.map Prod.fst).Nodup)
    (h : fs.Perm gs) : sortByKey fs = sortByKey gs := by
  have hsorted (fields : List (JsString × α)) :
      (sortByKey fields).Pairwise fun f g => f.1 ≤ g.1 := by
    have : IsTrans (JsString × α) fun f g => f.1 ≤ g.1 := ⟨fun _ _ _ => le_trans⟩
    have : Std.Total fun f g : JsString × α => f.1 ≤ g.1 := ⟨fun f g => le_total f.1 g.1⟩
    exact List.pairwise_insertionSort _ fields
  have hperm : (sortByKey fs).Perm (sortByKey gs) :=
    (sortByKey_perm fs).trans (h.trans (sortByKey_perm gs).symm)
  apply List.Perm.eq_of_pairwise _ (hsorted fs) (hsorted gs) hperm
  intro f g hf hg hle hge
  -- two fields with one key are one field
  have hf' : f ∈ fs := (sortByKey_perm fs).mem_iff.mp hf
  have hg' : g ∈ fs := h.mem_iff.mpr ((sortByKey_perm gs).mem_iff.mp hg)
  exact List.inj_on_of_nodup_map hkeys hf' hg' (le_antisymm hle hge)

end KeyOrder

namespace Value

section Rearrange

variable (σ : List (JsString × Value) → List (JsString × Value))

mutual

/-- Puts the keys of every object in the order of `σ`, from the inside out. -/
def rearrange : Value → Value
  | .array items => .array (rearrangeItems items)
  | .object fields => .object (σ (rearrangeFields fields))
  | v => v

def rearrangeItems : List Value → List Value
  | [] => []
  | v :: items => rearrange v :: rearrangeItems items

def rearrangeFields : List (JsString × Value) → List (JsString × Value)
  | [] => []
  | (key, v) :: fields => (key, rearrange v) :: rearrangeFields fields

end

variable {σ}

@[simp] theorem rearrange_array (items : List Value) :
    (array items).rearrange σ = .array (items.map (rearrange σ)) := by
  have hitems (items : List Value) : rearrangeItems σ items = items.map (rearrange σ) := by
    induction items with
    | nil => rfl
    | cons v items ih => rw [rearrangeItems, ih, List.map_cons]
  rw [rearrange, hitems]

@[simp] theorem rearrange_object (fields : List (JsString × Value)) :
    (object fields).rearrange σ = .object (σ (mapValues (rearrange σ) fields)) := by
  have hfields (fields : List (JsString × Value)) :
      rearrangeFields σ fields = mapValues (rearrange σ) fields := by
    induction fields with
    | nil => rfl
    | cons f fields ih =>
      rw [rearrangeFields, ih]
      rfl
  rw [rearrange, hfields]

/-- Rearranging twice is rearranging once, if the second order looks at keys only. -/
theorem rearrange_rearrange {τ : List (JsString × Value) → List (JsString × Value)}
    (hτ : ∀ g fields, τ (mapValues g fields) = mapValues g (τ fields)) (v : Value) :
    (v.rearrange τ).rearrange σ = v.rearrange (σ ∘ τ) := by
  induction v using induct with
  | null => rfl
  | bool b => rfl
  | number x => rfl
  | string s => rfl
  | array items ih =>
    rw [rearrange_array, rearrange_array, rearrange_array, List.map_map]
    exact congrArg array (List.map_congr_left ih)
  | object fields ih =>
    rw [rearrange_object, rearrange_object, rearrange_object, ← hτ, mapValues_mapValues]
    exact congrArg (fun fields => object (σ (τ fields))) (mapValues_congr ih)

end Rearrange

/-- The value with the keys of every object in the order they are listed in. -/
def ordered (v : Value) : Value := v.rearrange ownOrder

section Write

mutual

/-- The text of a value, its keys as they stand. -/
def write : Value → List Char
  | .null => "null".toList
  | .bool b => (if b then "true" else "false").toList
  | .number x => x.text
  | .string s => quote s
  | .array items => '[' :: [','].intercalate (writeItems items) ++ [']']
  | .object fields => '{' :: [','].intercalate (writeFields fields) ++ ['}']

def writeItems : List Value → List (List Char)
  | [] => []
  | v :: items => write v :: writeItems items

def writeFields : List (JsString × Value) → List (List Char)
  | [] => []
  | (key, v) :: fields => (quote key ++ ':' :: write v) :: writeFields fields

end

def writeField (f : JsString × Value) : List Char := quote f.1 ++ ':' :: write f.2

theorem write_array (items : List Value) :
    write (.array items) = '[' :: [','].intercalate (items.map write) ++ [']'] := by
  have hitems (items : List Value) : writeItems items = items.map write := by
    induction items with
    | nil => rfl
    | cons v items ih => rw [writeItems, ih, List.map_cons]
  rw [write, hitems]

theorem write_object (fields : List (JsString × Value)) :
    write (.object fields) = '{' :: [','].intercalate (fields.map writeField) ++ ['}'] := by
  have hfields (fields : List (JsString × Value)) :
      writeFields fields = fields.map writeField := by
    induction fields with
    | nil => rfl
    | cons f fields ih =>
      rw [writeFields, ih]
      rfl
  rw [write, hfields]

/-- What comes after a value in a text: nothing that a number could go on with. -/
def Ends (r : List Char) : Prop := ∀ c ∈ r.head?, isNumberChar c = false

/-- What follows the first text of a list: its closing mark, or a comma and the others. -/
theorem intercalate_cons_append {α : Type} (text : α → List Char) (x : α) (xs : List α)
    (tail : List Char) :
    [','].intercalate ((x :: xs).map text) ++ tail = text x ++
      if xs.isEmpty then tail else ',' :: ([','].intercalate (xs.map text) ++ tail) := by
  cases xs with
  | nil =>
    rw [List.map_singleton, List.intercalate_singleton]
    rfl
  | cons y ys =>
    rw [List.map_cons, List.map_cons, List.intercalate_cons_cons, List.append_assoc,
      List.append_assoc]
    rfl

/-- Where each text of a list can be read off, so can the list up to its closing mark. -/
theorem intercalate_reads {α : Type} {text : α → List Char} {close : Char}
    (hcomma : close ≠ ',') (hclose : isNumberChar close = false) {xs ys : List α}
    (hread : ∀ x ∈ xs, ∀ y r r', Ends r → Ends r' → text x ++ r = text y ++ r' → x = y ∧ r = r')
    (hhead : ∀ x r r', text x ++ r ≠ close :: r') {r r' : List Char}
    (h : [','].intercalate (xs.map text) ++ close :: r =
      [','].intercalate (ys.map text) ++ close :: r') : xs = ys ∧ r = r' := by
  have hends (ys : List α) (r : List Char) :
      Ends (if ys.isEmpty then close :: r
        else ',' :: ([','].intercalate (ys.map text) ++ close :: r)) := by
    intro c hc
    cases ys with
    | nil => exact Option.some.inj hc ▸ hclose
    | cons y ys => exact Option.some.inj hc ▸ rfl
  -- what follows an item is a comma or the closing bracket, neither of which is in a number
  induction xs generalizing ys with
  | nil =>
    cases ys with
    | nil => exact ⟨rfl, (List.cons.inj h).2⟩
    | cons y ys =>
      rw [intercalate_cons_append] at h
      exact absurd h.symm (hhead y _ _)
  | cons x xs ih =>
    cases ys with
    | nil =>
      rw [intercalate_cons_append] at h
      exact absurd h (hhead x _ _)
    | cons y ys =>
      rw [intercalate_cons_append, intercalate_cons_append] at h
      obtain ⟨rfl, htail⟩ := hread x List.mem_cons_self y _ _ (hends xs r) (hends ys r') h
      have hrest (x' : α) (hx : x' ∈ xs) := hread x' (List.mem_cons_of_mem x hx)
      cases xs with
      | nil =>
        cases ys with
        | nil => exact ⟨rfl, (List.cons.inj htail).2⟩
        | cons y' ys => exact absurd (List.cons.inj htail).1 hcomma
      | cons x' xs =>
        cases ys with
        | nil => exact absurd (List.cons.inj htail).1.symm hcomma
        | cons y' ys =>
          obtain ⟨hsame, hr⟩ := ih hrest (List.cons.inj htail).2
          rw [hsame]
          exact ⟨rfl, hr⟩

/-- Which of the kinds of values a text that begins so is of. -/
def leadKind (c : Char) : ℕ :=
  match c with
  | 'n' => 1
  | 't' | 'f' => 2
  | '"' => 4
  | '[' => 5
  | '{' => 6
  | _ => 0

def kind : Value → ℕ
  | .null => 1
  | .bool _ => 2
  | .number _ => 0
  | .string _ => 4
  | .array _ => 5
  | .object _ => 6

theorem leadKind_number {c : Char} (h : c.isDigit ∨ c = '-') : leadKind c = 0 := by
  unfold leadKind
  split
  all_goals first | rfl | exact absurd h (by decide)

theorem write_head (v : Value) : ∃ c rest, write v = c :: rest ∧ leadKind c = v.kind ∧
    c ≠ ']' := by
  -- the first character gives the kind away
  cases v with
  | null => exact ⟨_, _, rfl, rfl, by decide⟩
  | bool b =>
    cases b with
    | true => exact ⟨_, _, rfl, rfl, by decide⟩
    | false => exact ⟨_, _, rfl, rfl, by decide⟩
  | number x =>
    obtain ⟨c, rest, htext, hc⟩ := x.text_head
    refine ⟨c, rest, htext, leadKind_number hc, ?_⟩
    rintro rfl
    exact hc.elim (by decide) (by decide)
  | string s => exact ⟨_, _, rfl, rfl, by decide⟩
  | array items => exact ⟨_, _, write_array items, rfl, by decide⟩
  | object fields => exact ⟨_, _, write_object fields, rfl, by decide⟩

theorem kind_of_write {v w : Value} {r r' : List Char} (h : write v ++ r = write w ++ r') :
    v.kind = w.kind := by
  obtain ⟨c, rest, hv, hkind, _⟩ := v.write_head
  obtain ⟨c', rest', hw, hkind', _⟩ := w.write_head
  rw [hv, hw] at h
  rw [← hkind, ← hkind', (List.cons.inj h).1]

theorem bool_reads {b b' : Bool} {r r' : List Char}
    (h : write (.bool b) ++ r = write (.bool b') ++ r') : b = b' ∧ r = r' := by
  have hsame : b = b' := by
    have hhead := congrArg List.head? h
    cases b with
    | true =>
      cases b' with
      | true => rfl
      | false => cases hhead
    | false =>
      cases b' with
      | true => cases hhead
      | false => rfl
  subst hsame
  exact ⟨rfl, List.append_cancel_left h⟩

/-- A value is read off the front of any text that goes on after it as JSON does. -/
theorem write_reads (v : Value) : ∀ (w : Value) (r r' : List Char), Ends r → Ends r' →
    write v ++ r = write w ++ r' → v = w ∧ r = r' := by
  -- by induction on the value: its first character tells its kind, so that `w` is of the same
  induction v using induct with
  | null =>
    intro w r r' _ _ h
    have hkind := kind_of_write h
    cases w with
    | null => exact ⟨rfl, List.append_cancel_left h⟩
    | _ => cases hkind
  | bool b =>
    intro w r r' _ _ h
    have hkind := kind_of_write h
    cases w with
    | bool b' =>
      obtain ⟨rfl, hrest⟩ := bool_reads h
      exact ⟨rfl, hrest⟩
    | _ => cases hkind
  | number x =>
    intro w r r' hr hr' h
    have hkind := kind_of_write h
    cases w with
    | number y =>
      obtain ⟨rfl, hrest⟩ := Number.text_reads hr hr' h
      exact ⟨rfl, hrest⟩
    | _ => cases hkind
  | string s =>
    intro w r r' _ _ h
    have hkind := kind_of_write h
    cases w with
    | string t =>
      obtain ⟨rfl, hrest⟩ := quote_reads h
      exact ⟨rfl, hrest⟩
    | _ => cases hkind
  | array items ih =>
    intro w r r' _ _ h
    have hkind := kind_of_write h
    cases w with
    | array items' =>
      rw [write_array, write_array, List.cons_append, List.cons_append, List.append_assoc,
        List.append_assoc] at h
      obtain ⟨rfl, hrest⟩ := intercalate_reads (by decide) rfl ih (fun v r r' hv => by
        obtain ⟨c, rest, hw, _, hc⟩ := v.write_head
        rw [hw] at hv
        exact hc (List.cons.inj hv).1) (List.cons.inj h).2
      exact ⟨rfl, hrest⟩
    | _ => cases hkind
  | object fields ih =>
    intro w r r' _ _ h
    have hkind := kind_of_write h
    cases w with
    | object fields' =>
      rw [write_object, write_object, List.cons_append, List.cons_append, List.append_assoc,
        List.append_assoc] at h
      obtain ⟨rfl, hrest⟩ := intercalate_reads (by decide) rfl (fun f hf g r r' hr hr' hfield => by
        unfold writeField at hfield
        rw [List.append_assoc, List.append_assoc] at hfield
        obtain ⟨hkey, hvalue⟩ := quote_reads hfield
        obtain ⟨hsame, hrest⟩ := ih f hf g.2 r r' hr hr' (List.cons.inj hvalue).2
        exact ⟨Prod.ext hkey hsame, hrest⟩) (fun f r r' hf => by cases hf) (List.cons.inj h).2
      exact ⟨rfl, hrest⟩
    | _ => cases hkind

end Write

/-- `JSON.stringify`: the keys of an object are written in the order they are listed in. -/
def stringify (v : Value) : List Char := write v.ordered

theorem stringify_inj {v w : Value} : stringify v = stringify w ↔ v.ordered = w.ordered := by
  constructor
  · intro h
    have hend : Ends [] := fun c hc => (nomatch hc)
    unfold stringify at h
    rw [← List.append_nil (write _), ← List.append_nil (write w.ordered)] at h
    exact (write_reads _ _ _ _ hend hend h).1
  · intro h
    rw [stringify, stringify, h]

end Value

section SameUpToOrder

/-- The string of a text. -/
def jsString (text : String) : JsString :=
  text.toList.flatMap fun c => (codeUnits c.toNat).map (Fin.ofNat 0x10000)

/-- The key whose assignment sets the prototype of an object and no property. -/
def proto : JsString := jsString "__proto__"

/-- The keys an object can be given one after the other. -/
structure PlainKeys {α : Type} (fields : List (JsString × α)) : Prop where
  nodup : (fields.map Prod.fst).Nodup
  no_proto : proto ∉ fields.map Prod.fst

inductive WellKeyed : Value → Prop
  | null : WellKeyed .null
  | bool (b : Bool) : WellKeyed (.bool b)
  | number (x : Number) : WellKeyed (.number x)
  | string (s : JsString) : WellKeyed (.string s)
  | array {items : List Value} (items_keyed : ∀ v ∈ items, WellKeyed v) :
    WellKeyed (.array items)
  | object {fields : List (JsString × Value)} (keys : PlainKeys fields)
    (fields_keyed : ∀ f ∈ fields, WellKeyed f.2) : WellKeyed (.object fields)

mutual

/-- Equality up to the order of the keys of objects, at every level. -/
inductive Same : Value → Value → Prop
  | null : Same .null .null
  | bool (b : Bool) : Same (.bool b) (.bool b)
  | number (x : Number) : Same (.number x) (.number x)
  | string (s : JsString) : Same (.string s) (.string s)
  | array {xs ys : List Value} (items : SameItems xs ys) : Same (.array xs) (.array ys)
  | object {fs hs gs : List (JsString × Value)} (fields : SameFields fs hs)
    (reordered : hs.Perm gs) : Same (.object fs) (.object gs)

inductive SameItems : List Value → List Value → Prop
  | nil : SameItems [] []
  | cons {v w : Value} {xs ys : List Value} (head : Same v w) (tail : SameItems xs ys) :
    SameItems (v :: xs) (w :: ys)

inductive SameFields : List (JsString × Value) → List (JsString × Value) → Prop
  | nil : SameFields [] []
  | cons {key : JsString} {v w : Value} {fs gs : List (JsString × Value)} (head : Same v w)
    (tail : SameFields fs gs) : SameFields ((key, v) :: fs) ((key, w) :: gs)

end

variable {σ : List (JsString × Value) → List (JsString × Value)}

/-- An order that depends on which fields there are and not on the order they come in. -/
structure Canonical (σ : List (JsString × Value) → List (JsString × Value)) : Prop where
  perm : ∀ fields, PlainKeys fields → (σ fields).Perm fields
  unique : ∀ fs gs, PlainKeys fs → fs.Perm gs → σ fs = σ gs

theorem PlainKeys.perm {α : Type} {fs gs : List (JsString × α)} (h : PlainKeys fs)
    (hperm : fs.Perm gs) : PlainKeys gs := by
  have hkeys : (fs.map Prod.fst).Perm (gs.map Prod.fst) := hperm.map _
  exact ⟨hkeys.nodup_iff.mp h.nodup, fun hmem => h.no_proto (hkeys.mem_iff.mpr hmem)⟩

theorem PlainKeys.mapValues {α β : Type} {fields : List (JsString × α)} (h : PlainKeys fields)
    (g : α → β) : PlainKeys (mapValues g fields) := by
  have hkeys : (JsonText.mapValues g fields).map Prod.fst = fields.map Prod.fst :=
    List.map_map
  constructor
  · rw [hkeys]
    exact h.nodup
  · rw [hkeys]
    exact h.no_proto

theorem PlainKeys.ownOrder {α : Type} {fields : List (JsString × α)} (h : PlainKeys fields) :
    PlainKeys (ownOrder fields) :=
  h.perm (ownOrder_perm fields).symm

theorem Canonical.ownOrder_comp (h : Canonical σ) : Canonical (ownOrder ∘ σ) :=
  ⟨fun fields hkeys => (ownOrder_perm _).trans (h.perm fields hkeys),
    fun fs gs hkeys hperm => congrArg ownOrder (h.unique fs gs hkeys hperm)⟩

theorem Canonical.comp_ownOrder (h : Canonical σ) : Canonical (σ ∘ ownOrder) := by
  constructor
  · exact fun fields hkeys => (h.perm _ hkeys.ownOrder).trans (ownOrder_perm fields)
  · intro fs gs hkeys hperm
    have hown : (ownOrder fs).Perm (ownOrder gs) :=
      (ownOrder_perm fs).trans (hperm.trans (ownOrder_perm gs).symm)
    exact h.unique _ _ hkeys.ownOrder hown

theorem sameItems_iff {R : Value → Value} {xs ys : List Value}
    (h : ∀ v ∈ xs, ∀ w ∈ ys, R v = R w ↔ Same v w) :
    xs.map R = ys.map R ↔ SameItems xs ys := by
  -- item by item; lists of different lengths are not the same
  induction xs generalizing ys with
  | nil =>
    cases ys with
    | nil => exact ⟨fun _ => .nil, fun _ => rfl⟩
    | cons y ys => exact ⟨fun h => (nomatch h), fun h => (nomatch h)⟩
  | cons x xs ih =>
    cases ys with
    | nil => exact ⟨fun h => (nomatch h), fun h => (nomatch h)⟩
    | cons y ys =>
      have hhead := h x List.mem_cons_self y List.mem_cons_self
      have htail : xs.map R = ys.map R ↔ SameItems xs ys :=
        ih fun v hv w hw => h v (List.mem_cons_of_mem x hv) w (List.mem_cons_of_mem y hw)
      rw [List.map_cons, List.map_cons, List.cons.injEq, hhead, htail]
      constructor
      · exact fun hsame => .cons hsame.1 hsame.2
      · intro hsame
        cases hsame with
        | cons hx hxs => exact ⟨hx, hxs⟩

theorem sameFields_iff {R : Value → Value} {fs gs : List (JsString × Value)}
    (h : ∀ f ∈ fs, ∀ g ∈ gs, R f.2 = R g.2 ↔ Same f.2 g.2) :
    mapValues R fs = mapValues R gs ↔ SameFields fs gs := by
  induction fs generalizing gs with
  | nil =>
    cases gs with
    | nil => exact ⟨fun _ => .nil, fun _ => rfl⟩
    | cons g gs => exact ⟨fun h => (nomatch h), fun h => (nomatch h)⟩
  | cons f fs ih =>
    cases gs with
    | nil => exact ⟨fun h => (nomatch h), fun h => (nomatch h)⟩
    -- the keys are compared as they stand
    | cons g gs =>
      obtain ⟨key, v⟩ := f
      obtain ⟨key', w⟩ := g
      have hhead : R v = R w ↔ Same v w := h _ List.mem_cons_self _ List.mem_cons_self
      have htail : mapValues R fs = mapValues R gs ↔ SameFields fs gs :=
        ih fun f hf g hg => h f (List.mem_cons_of_mem _ hf) g (List.mem_cons_of_mem _ hg)
      show (key, R v) :: mapValues R fs = (key', R w) :: mapValues R gs ↔ _
      rw [List.cons.injEq, Prod.mk.injEq, hhead, htail]
      constructor
      · rintro ⟨⟨rfl, hv⟩, hfs⟩
        exact .cons hv hfs
      · intro hsame
        cases hsame with
        | cons hv hfs => exact ⟨⟨rfl, hv⟩, hfs⟩

/-- Fields that are alike but for their order, once their values are. -/
theorem mapValues_perm_iff {R : Value → Value} {fs gs : List (JsString × Value)} :
    (mapValues R fs).Perm (mapValues R gs) ↔
      ∃ hs, mapValues R fs = mapValues R hs ∧ hs.Perm gs := by
  constructor
  · intro h
    have hcomp := congrFun (congrFun (List.eq_map_comp_perm fun f : JsString × Value =>
      (f.1, R f.2)) (mapValues R fs)) gs
    exact hcomp.mpr h
  · rintro ⟨hs, heq, hperm⟩
    rw [heq]
    exact mapValues_perm hperm

theorem rearrange_eq_iff_same (hσ : Canonical σ) {v w : Value} (hv : WellKeyed v)
    (hw : WellKeyed w) : v.rearrange σ = w.rearrange σ ↔ Same v w := by
  induction v using Value.induct generalizing w with
  | null =>
    cases w with
    | null => exact iff_of_true rfl .null
    | _ => exact iff_of_false (fun h => by cases h) (fun h => by cases h)
  | bool b =>
    cases w with
    | bool b' => exact ⟨fun h => by cases h; exact .bool b, fun h => by cases h; rfl⟩
    | _ => exact iff_of_false (fun h => by cases h) (fun h => by cases h)
  | number x =>
    cases w with
    | number y => exact ⟨fun h => by cases h; exact .number x, fun h => by cases h; rfl⟩
    | _ => exact iff_of_false (fun h => by cases h) (fun h => by cases h)
  | string s =>
    cases w with
    | string t => exact ⟨fun h => by cases h; exact .string s, fun h => by cases h; rfl⟩
    | _ => exact iff_of_false (fun h => by cases h) (fun h => by cases h)
  | array items ih =>
    cases hv with
    | array hitems =>
      cases hw with
      | @array items' hitems' =>
        rw [Value.rearrange_array, Value.rearrange_array, Value.array.injEq,
          sameItems_iff fun v hmem w hmem' => ih v hmem (hitems v hmem) (hitems' w hmem')]
        constructor
        · exact .array
        · intro hsame
          cases hsame with
          | array hitems => exact hitems
      | _ => exact iff_of_false (fun h => by cases h) (fun h => by cases h)
  | object fields ih =>
    cases hv with
    | object hkeys hfields =>
      cases hw with
      | @object fields' hkeys' hfields' =>
        -- the order `σ` gives is that of the same fields in any other order
        have hσ_iff : σ (mapValues (Value.rearrange σ) fields) =
            σ (mapValues (Value.rearrange σ) fields') ↔
              (mapValues (Value.rearrange σ) fields).Perm
                (mapValues (Value.rearrange σ) fields') := by
          constructor
          · intro h
            have hleft := hσ.perm _ (hkeys.mapValues (Value.rearrange σ))
            rw [h] at hleft
            exact hleft.symm.trans (hσ.perm _ (hkeys'.mapValues (Value.rearrange σ)))
          · exact hσ.unique _ _ (hkeys.mapValues (Value.rearrange σ))
        rw [Value.rearrange_object, Value.rearrange_object, Value.object.injEq, hσ_iff,
          mapValues_perm_iff]
        have hsame (hs : List (JsString × Value)) (hperm : hs.Perm fields') :
            mapValues (Value.rearrange σ) fields = mapValues (Value.rearrange σ) hs ↔
              SameFields fields hs :=
          sameFields_iff fun f hmem g hmem' =>
            ih f hmem (hfields f hmem) (hfields' g (hperm.mem_iff.mp hmem'))
        constructor
        · rintro ⟨hs, heq, hperm⟩
          exact .object ((hsame hs hperm).mp heq) hperm
        · intro h
          cases h with
          | @object _ hs _ hfs hperm => exact ⟨hs, (hsame hs hperm).mpr hfs, hperm⟩
      | _ => exact iff_of_false (fun h => by cases h) (fun h => by cases h)

/-- What lists its keys in the same order everywhere is the same up to their order. -/
theorem same_of_ordered (hσ : Canonical σ) {v w : Value} (hv : WellKeyed v) (hw : WellKeyed w)
    (h : v.ordered = w.ordered) : Same v w := by
  apply (rearrange_eq_iff_same hσ.comp_ownOrder hv hw).mp
  rw [← Value.rearrange_rearrange ownOrder_mapValues,
    ← Value.rearrange_rearrange ownOrder_mapValues]
  exact congrArg (Value.rearrange σ) h

end SameUpToOrder

end JsonText
