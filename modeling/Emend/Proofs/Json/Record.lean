import Emend.Json.Record
import Mathlib.Data.List.Forall2
import Mathlib.Data.List.Nodup

namespace Emend.Json

namespace Record

variable {β : Type} {r : Record} {name : String} {v : Value} {read : Value → Option β}

theorem required_of_find? (h : r.find? name = some v) : r.required name read = read v := by
  rw [required, h, Option.bind_some]

theorem withDefault_of_find? {default : β} (h : r.find? name = some v) :
    r.withDefault name default read = read v := by
  rw [withDefault, h]

theorem optional_of_find? (h : r.find? name = some v) (hv : v ≠ .null) :
    r.optional name read = (read v).map some := by
  rw [optional, h]
  split <;> simp_all

theorem optional_of_orNull {write : β → Value} {x : Option β}
    (h : r.find? name = some (.orNull write x))
    (hread : ∀ y, x = some y → write y ≠ .null ∧ read (write y) = some y) :
    r.optional name read = some x := by
  cases x with
  | none => rw [optional, h]; rfl
  | some y =>
      obtain ⟨hne, hy⟩ := hread y rfl
      rw [optional_of_find? h hne, Value.orNull, hy]
      rfl

theorem optional_of_find?_eq_none (h : r.find? name = none) (hkeyed : r.keyed = true) :
    r.optional name read = some none := by
  rw [optional, h, hkeyed]
  rfl

end Record

namespace Value

variable {fields : List Field} {known : Text → Bool} {own ms extras : List (Text × Value)}
  {v t : Value} {k name : Text} {inRange : Literal → Bool}

/-- A member that a record may hold beside its own has a value like this. -/
def isAside : Value → Bool
  | null | bool _ | string (some _) => true
  | _ => false

/-- An object with these members in any order, among others with keys that are not known. -/
def HasMembers (known : Text → Bool) (own : List (Text × Value)) (v : Value) : Prop :=
  ∃ extras ms, (∀ m ∈ extras, known m.1 = false ∧ m.2.isAside = true) ∧
    ms.Perm (own ++ extras) ∧ v = .record ms

theorem hasMembers_record (known : Text → Bool) (own : List (Text × Value)) :
    HasMembers known own (.record own) :=
  ⟨[], own, by simp, by simp, rfl⟩

def asField? (fields : List Field) (m : Text × Value) : Option (Text × Value) :=
  (fieldOf fields m.1).map (·, m.2)

theorem keyed?_map (hnodup : ((ms.filterMap (asField? fields)).map Prod.fst).Nodup) :
    keyed? fields (ms.map fun (k, v) => (some k, v)) = some (ms.filterMap (asField? fields)) := by
  induction ms with
  | nil => rfl
  | cons m ms ih =>
      obtain ⟨k, v⟩ := m
      rw [List.map_cons, keyed?]
      cases hk : fieldOf fields k with
      | none =>
          have hnone : asField? fields (k, v) = none := by simp [asField?, hk]
          rw [List.filterMap_cons_none hnone] at hnodup ⊢
          rw [ih hnodup]
          rfl
      | some name =>
          have hsome : asField? fields (k, v) = some (name, v) := by simp [asField?, hk]
          rw [List.filterMap_cons_some hsome] at hnodup ⊢
          rw [List.map_cons, List.nodup_cons] at hnodup
          have hnew : (ms.filterMap (asField? fields)).lookup name = none := by
            rw [List.lookup_eq_none_iff]
            intro p hp
            rw [bne_iff_ne]
            intro heq
            exact hnodup.1 (List.mem_map.2 ⟨p, hp, heq.symm⟩)
          rw [ih hnodup.2]
          simp [hnew]

def isField (fields : List Field) (k : Text) : Bool := fields.any (·.named k)

def isFieldOrTag (fields : List Field) (tag : String) (k : Text) : Bool :=
  k == tag.toList || isField fields k

theorem fieldOf_eq_none (h : isField fields k = false) : fieldOf fields k = none := by
  rw [isField, List.any_eq_false] at h
  rw [fieldOf, Option.map_eq_none_iff, List.find?_eq_none]
  exact h

theorem fieldOf_eq_none_of_tag {tag : String} (h : isFieldOrTag fields tag k = false) :
    fieldOf fields k = none := by
  rw [isFieldOrTag, Bool.or_eq_false_iff] at h
  exact fieldOf_eq_none h.2

theorem lookup_eq_of_perm {β : Type} {l l' : List (Text × β)} (h : l.Perm l')
    (hnodup : (l'.map Prod.fst).Nodup) (k : Text) : l.lookup k = l'.lookup k := by
  induction h with
  | nil => rfl
  | cons p _ ih => rw [List.lookup_cons, List.lookup_cons, ih (List.nodup_cons.1 hnodup).2]
  | swap p q l =>
      rw [List.map_cons, List.nodup_cons] at hnodup
      have hne : p.1 ≠ q.1 := fun h => hnodup.1 (h ▸ List.mem_cons_self ..)
      rw [List.lookup_cons, List.lookup_cons, List.lookup_cons, List.lookup_cons]
      by_cases hk : k = p.1
      · have hq : (k == q.1) = false := beq_false_of_ne (hk ▸ hne)
        simp [hq]
      · simp [beq_false_of_ne hk]
  | trans _ h ih ih' => rw [ih ((h.map _).nodup_iff.2 hnodup), ih' hnodup]

theorem record?_of_hasMembers (keys : List String) (h : HasMembers known own v)
    (hknown : ∀ {k}, known k = false → fieldOf fields k = none)
    (hkeys : own.map Prod.fst = keys.map String.toList)
    (hkeysNodup : ((keys.map String.toList).filterMap (fieldOf fields)).Nodup) :
    ∃ r, v.record? fields = some r ∧ r.keyed = true ∧
      ∀ name, r.find? name = (own.filterMap (asField? fields)).lookup name.toList := by
  obtain ⟨extras, ms, hextras, hperm, rfl⟩ := h
  have hnodup : ((own.filterMap (asField? fields)).map Prod.fst).Nodup := by
    rw [← hkeys, List.filterMap_map] at hkeysNodup
    rw [List.map_filterMap]
    convert hkeysNodup using 3 with m
    rw [asField?, Option.map_map, Function.comp_apply]
    exact Option.map_id'
  have hnone : extras.filterMap (asField? fields) = [] := by
    rw [List.filterMap_eq_nil_iff]
    intro m hm
    simp [asField?, hknown (hextras m hm).1]
  have hfound := hperm.filterMap (asField? fields)
  rw [List.filterMap_append, hnone, List.append_nil] at hfound
  refine ⟨⟨true, ms.filterMap (asField? fields)⟩, ?_, rfl, fun name => ?_⟩
  · rw [Value.record, record?, keyed?_map ((hfound.map _).nodup_iff.2 hnodup)]
    rfl
  · exact lookup_eq_of_perm hfound hnodup name.toList

theorem untag?_of_hasMembers {tag : String} (h : HasMembers known ((tag.toList, t) :: own) v)
    (htag : known tag.toList = true) (hown : ∀ m ∈ own, m.1 ≠ tag.toList) :
    ∃ v', HasMembers known own v' ∧ ∀ {β : Type} (read : Value → Option β),
      v.untag? read tag = (read t).map (·, v') := by
  obtain ⟨extras, ms, hextras, hperm, rfl⟩ := h
  have hextras' : ∀ m ∈ extras, m.1 ≠ tag.toList := by
    intro m hm heq
    have hunknown := (hextras m hm).1
    rw [heq, htag] at hunknown
    cases hunknown
  have hothers : ∀ m ∈ own ++ extras, m.1 ≠ tag.toList := by
    intro m hm
    exact (List.mem_append.1 hm).elim (hown m) (hextras' m)
  have hfilter (p : Text × Value → Bool) (q : Str × Value → Bool)
      (hpq : ∀ k v, q (some k, v) = p (k, v)) :
      (ms.map fun (k, v) => (some k, v)).filter q = (ms.filter p).map fun (k, v) => (some k, v) := by
    rw [List.filter_map]
    congr 2
    funext m
    exact hpq m.1 m.2
  have htagged : ms.filter (·.1 == tag.toList) = [(tag.toList, t)] := by
    have hnone : (own ++ extras).filter (·.1 == tag.toList) = [] := by
      rw [List.filter_eq_nil_iff]
      exact fun m hm => by simpa using hothers m hm
    have hp := hperm.filter (·.1 == tag.toList)
    rw [List.cons_append, List.filter_cons_of_pos (by simp), hnone] at hp
    exact List.perm_singleton.1 hp
  refine ⟨.record (ms.filter (!·.1 == tag.toList)), ⟨extras, _, hextras, ?_, rfl⟩, fun read => ?_⟩
  · have hall : (own ++ extras).filter (!·.1 == tag.toList) = own ++ extras := by
      rw [List.filter_eq_self]
      exact fun m hm => by simpa using hothers m hm
    have hp := hperm.filter (!·.1 == tag.toList)
    rwa [List.cons_append, List.filter_cons_of_neg (by simp), hall] at hp
  · rw [Value.record, untag?]
    dsimp only
    rw [hfilter (·.1 == tag.toList) _ fun k v => by simp, htagged,
      hfilter (!·.1 == tag.toList) _ fun k v => by simp]
    rfl

theorem tagged?_eq {outer : Nat} (tag : String) (h : v.wellFormed inRange = true)
    (hheight : outer + v.height ≤ nestingLimit) :
    v.tagged? inRange outer tag = v.untag? text? tag := by
  have hdeep : ¬nestingLimit < outer + v.height := Nat.not_lt_of_le hheight
  simp [tagged?, h, hdeep]

theorem wellFormedMembers_iff {members : List (Str × Value)} :
    wellFormedMembers inRange members = true ↔
      ∀ m ∈ members, m.1.isSome = true ∧ m.2.wellFormed inRange = true := by
  induction members with
  | nil => simp [wellFormedMembers]
  | cons m ms ih =>
      obtain ⟨k, v⟩ := m
      simp [wellFormedMembers, wellFormedMember, ih]

theorem wellFormedItems_iff {vs : List Value} :
    wellFormedItems inRange vs = true ↔ ∀ v ∈ vs, v.wellFormed inRange = true := by
  induction vs with
  | nil => simp [wellFormedItems]
  | cons v vs ih => simp [wellFormedItems, ih]

theorem wellFormed_of_isAside (h : v.isAside = true) : v.wellFormed inRange = true := by
  cases v with
  | null | bool b => rfl
  | string s => cases s <;> simp_all [isAside, wellFormed]
  | number n => cases h
  | array vs => cases h
  | object ms => cases h

theorem wellFormed_of_hasMembers (h : HasMembers known own v)
    (hown : ∀ m ∈ own, m.2.wellFormed inRange = true) : v.wellFormed inRange = true := by
  obtain ⟨extras, ms, hextras, hperm, rfl⟩ := h
  rw [Value.record, wellFormed, wellFormedMembers_iff]
  intro m hm
  obtain ⟨⟨k, v⟩, hkv, rfl⟩ := List.mem_map.1 hm
  refine ⟨rfl, ?_⟩
  rcases List.mem_append.1 (hperm.mem_iff.1 hkv) with hkv | hkv
  · exact hown _ hkv
  · exact wellFormed_of_isAside (hextras _ hkv).2

theorem heightMembers_le {members : List (Str × Value)} {n : Nat}
    (h : ∀ m ∈ members, m.2.height ≤ n) : heightMembers members ≤ n := by
  induction members with
  | nil => exact Nat.zero_le n
  | cons m ms ih =>
      obtain ⟨k, v⟩ := m
      rw [List.forall_mem_cons] at h
      exact Nat.max_le.2 ⟨h.1, ih h.2⟩

theorem heightItems_le {vs : List Value} {n : Nat} (h : ∀ v ∈ vs, v.height ≤ n) :
    heightItems vs ≤ n := by
  induction vs with
  | nil => exact Nat.zero_le n
  | cons v vs ih =>
      rw [List.forall_mem_cons] at h
      exact Nat.max_le.2 ⟨h.1, ih h.2⟩

theorem height_of_isAside (h : v.isAside = true) : v.height = 0 := by
  cases v with
  | null | bool b | string s | number n => rfl
  | array vs => cases h
  | object ms => cases h

theorem height_le_of_hasMembers (h : HasMembers known own v) {n : Nat}
    (hown : ∀ m ∈ own, m.2.height ≤ n) : v.height ≤ n + 1 := by
  obtain ⟨extras, ms, hextras, hperm, rfl⟩ := h
  refine Nat.succ_le_succ (heightMembers_le fun m hm => ?_)
  obtain ⟨⟨k, v⟩, hkv, rfl⟩ := List.mem_map.1 hm
  rcases List.mem_append.1 (hperm.mem_iff.1 hkv) with hkv | hkv
  · exact hown _ hkv
  · exact Nat.le_trans (Nat.le_of_eq (height_of_isAside (hextras _ hkv).2)) (Nat.zero_le n)

section

variable {β γ : Type} {form : β → Value → Prop} {xs : List β}

/-- An array of forms of these values, in order. -/
def HasItems (form : β → Value → Prop) (xs : List β) (v : Value) : Prop :=
  ∃ vs, List.Forall₂ form xs vs ∧ v = .array vs

theorem hasItems_map {write : β → Value} (h : ∀ x, form x (write x)) (xs : List β) :
    HasItems form xs (.array (xs.map write)) :=
  ⟨xs.map write, by simp [List.forall₂_map_right_iff, List.forall₂_same, h], rfl⟩

theorem list?_of_hasItems {read : Value → Option γ} {f : β → γ} (h : HasItems form xs v)
    (hread : ∀ x ∈ xs, ∀ v, form x v → read v = some (f x)) :
    list? read v = some (xs.map f) := by
  obtain ⟨vs, hforms, rfl⟩ := h
  rw [list?]
  induction hforms with
  | nil => rfl
  | cons hform hforms ih =>
      rw [List.forall_mem_cons] at hread
      rw [List.mapM_cons, hread.1 _ hform, ih hread.2]
      rfl

theorem forall_mem_of_forall₂ {p : Value → Prop} {vs : List Value}
    (h : List.Forall₂ form xs vs) (hp : ∀ x ∈ xs, ∀ v, form x v → p v) : ∀ v ∈ vs, p v := by
  induction h with
  | nil => simp
  | cons hform hforms ih =>
      rw [List.forall_mem_cons] at hp ⊢
      exact ⟨hp.1 _ hform, ih hp.2⟩

theorem wellFormed_of_hasItems (h : HasItems form xs v)
    (hform : ∀ x ∈ xs, ∀ v, form x v → v.wellFormed inRange = true) :
    v.wellFormed inRange = true := by
  obtain ⟨vs, hforms, rfl⟩ := h
  rw [wellFormed, wellFormedItems_iff]
  exact forall_mem_of_forall₂ hforms hform

theorem height_le_of_hasItems (h : HasItems form xs v) {n : Nat}
    (hform : ∀ x ∈ xs, ∀ v, form x v → v.height ≤ n) : v.height ≤ n + 1 := by
  obtain ⟨vs, hforms, rfl⟩ := h
  exact Nat.succ_le_succ (heightItems_le (forall_mem_of_forall₂ hforms hform))

end

end Value

end Emend.Json
