import Emend.Workspace.Disk
import Mathlib.Data.Char
import Mathlib.Data.List.Infix
import Mathlib.Data.List.Lex
import Mathlib.Data.List.Nodup

namespace Emend.Entry

variable {items : List (Name × Entry)} {n m : Name} {e f new : Entry}

theorem lookup_cons (i : Name × Entry) (items : List (Name × Entry)) :
    List.lookup n (i :: items) = if n = i.1 then some i.2 else List.lookup n items := by
  rw [List.lookup_cons]
  by_cases h : n = i.1
  · simp [h]
  · have hne : (n == i.1) = false := by simpa using h
    simp [h, hne]

theorem setItem_cons (i : Name × Entry) (items : List (Name × Entry)) :
    setItem n e (i :: items) =
      if n = i.1 then (n, e) :: items
      else if n < i.1 then (n, e) :: i :: items
      else i :: setItem n e items := rfl

theorem mem_of_lookup (h : items.lookup n = some e) : (n, e) ∈ items := by
  obtain ⟨before, rest, rfl, -⟩ := List.lookup_eq_some_iff.1 h
  simp

@[simp] theorem lookup_setItem_self (n : Name) (e : Entry) (items : List (Name × Entry)) :
    (setItem n e items).lookup n = some e := by
  induction items with
  | nil => simp [setItem]
  | cons i items ih =>
      by_cases h : n = i.1
      · simp [setItem_cons, h]
      · by_cases hlt : n < i.1 <;> simp [setItem_cons, h, hlt, lookup_cons, ih]

theorem lookup_setItem_of_ne (h : m ≠ n) : (setItem n e items).lookup m = items.lookup m := by
  induction items with
  | nil => simp [setItem, lookup_cons, h]
  | cons i items ih =>
      by_cases hn : n = i.1
      · subst hn
        simp [setItem_cons, lookup_cons, h]
      · by_cases hlt : n < i.1 <;> simp [setItem_cons, hn, hlt, lookup_cons, h, ih]

theorem setItem_setItem : setItem n e (setItem n f items) = setItem n e items := by
  induction items with
  | nil => simp [setItem]
  | cons i items ih =>
      by_cases hn : n = i.1
      · simp [setItem_cons, hn]
      · by_cases hlt : n < i.1 <;> simp [setItem_cons, hn, hlt, ih]

theorem setItem_comm_of_lt (h : n < m) :
    setItem n e (setItem m f items) = setItem m f (setItem n e items) := by
  induction items with
  | nil => simp [setItem, h.ne, h.ne', h, h.not_gt]
  | cons i items ih =>
      rcases lt_trichotomy m i.1 with hm | rfl | hm
      · have hn := h.trans hm
        simp [setItem_cons, hm, hm.ne, hn, hn.ne, h, h.ne, h.ne', h.not_gt]
      · simp [setItem_cons, h, h.ne, h.ne', h.not_gt]
      · rcases lt_trichotomy n i.1 with hn | rfl | hn
        · simp [setItem_cons, hm.ne', hm.not_gt, hn, hn.ne, h.ne', h.not_gt]
        · simp [setItem_cons, hm.ne', hm.not_gt]
        · simp [setItem_cons, hm.ne', hm.not_gt, hn.ne', hn.not_gt, ih]

theorem setItem_comm (h : n ≠ m) :
    setItem n e (setItem m f items) = setItem m f (setItem n e items) := by
  rcases lt_or_gt_of_ne h with hlt | hlt
  · exact setItem_comm_of_lt hlt
  · exact (setItem_comm_of_lt hlt).symm

variable {p q : List Name}

/-- No file stands above the place. -/
def Clear : Entry → (at_ : List Name) → Prop
  | _, [] => True
  | file _, _ :: _ => False
  | directory items, n :: ns => ∀ e, items.lookup n = some e → e.Clear ns

theorem clear_directory_nil (ns : List Name) : (directory []).Clear ns := by
  cases ns with
  | nil => trivial
  | cons n ns => nofun

theorem Clear.getD (h : (directory items).Clear (n :: p)) :
    ((items.lookup n).getD (directory [])).Clear p := by
  cases hn : items.lookup n with
  | none => exact clear_directory_nil p
  | some e => exact h e hn

theorem Clear.append_left (h : e.Clear (p ++ q)) : e.Clear p := by
  induction p generalizing e with
  | nil => trivial
  | cons n p ih =>
      cases e with
      | file b => exact h
      | directory items => exact fun e he => ih (h e he)

theorem Clear.find?_ne_file (h : e.Clear (p ++ n :: q)) (b : Bytes) :
    e.find? p ≠ some (file b) := by
  induction p generalizing e with
  | nil =>
      cases e with
      | file b' => exact absurd h id
      | directory items => simp [find?]
  | cons m p ih =>
      cases e with
      | file b' => exact absurd h id
      | directory items =>
          rw [find?]
          cases hm : items.lookup m with
          | none => simp
          | some e => exact ih (h e hm)

theorem find?_append (e : Entry) (p q : List Name) :
    e.find? (p ++ q) = (e.find? p).bind (find? · q) := by
  induction p generalizing e with
  | nil => rfl
  | cons n p ih =>
      cases e with
      | file b => rfl
      | directory items =>
          rw [List.cons_append, find?, find?]
          cases items.lookup n with
          | none => rfl
          | some e => exact ih e

theorem exists_directory_above (h : e.find? (p ++ n :: q) = some f) :
    ∃ items, e.find? p = some (directory items) := by
  rw [find?_append] at h
  obtain ⟨g, hg, hrest⟩ := Option.bind_eq_some_iff.1 h
  cases g with
  | file b => cases hrest
  | directory items => exact ⟨items, hg⟩

theorem put_cons (items : List (Name × Entry)) (n : Name) (p : List Name) (new : Entry) :
    (directory items).put (n :: p) new =
      directory (setItem n (((items.lookup n).getD (directory [])).put p new) items) := rfl

theorem clear_of_find? (h : e.find? p = some f) : e.Clear p := by
  induction p generalizing e with
  | nil => trivial
  | cons n p ih =>
      cases e with
      | file b => cases h
      | directory items =>
          intro g hg
          rw [find?, hg] at h
          exact ih h

theorem Clear.append_of_find? (h : f.Clear q) (hf : e.find? p = some f) : e.Clear (p ++ q) := by
  induction p generalizing e with
  | nil =>
      rw [find?] at hf
      exact Option.some.inj hf ▸ h
  | cons n p ih =>
      cases e with
      | file b => cases hf
      | directory items =>
          intro g hg
          rw [find?, hg] at hf
          exact ih hf

theorem find?_put_append (h : e.Clear p) : (e.put p new).find? (p ++ q) = new.find? q := by
  induction p generalizing e with
  | nil => cases e <;> rfl
  | cons n p ih =>
      cases e with
      | file b => exact absurd h id
      | directory items => simp [put_cons, find?, ih h.getD]

theorem find?_put_self (h : e.Clear p) : (e.put p new).find? p = some new := by
  have hput : (e.put p new).find? (p ++ []) = new.find? [] := find?_put_append h
  rwa [List.append_nil, find?] at hput

theorem find?_put_above (h : e.Clear (p ++ n :: q)) :
    ∃ items, (e.put (p ++ n :: q) new).find? p = some (directory items) := by
  induction p generalizing e with
  | nil =>
      cases e with
      | file b => exact absurd h id
      | directory items => exact ⟨_, rfl⟩
  | cons m p ih =>
      cases e with
      | file b => exact absurd h id
      | directory items =>
          obtain ⟨items', hitems⟩ := ih (Clear.getD h)
          exact ⟨items', by simpa [put_cons, find?] using hitems⟩

theorem find?_put_of_apart (h : ¬p <+: q) (h' : ¬q <+: p) : (e.put p new).find? q = e.find? q := by
  induction p generalizing e q with
  | nil => exact absurd List.nil_prefix h
  | cons n p ih =>
      cases q with
      | nil => exact absurd List.nil_prefix h'
      | cons m q =>
          cases e with
          | file b => rfl
          | directory items =>
              rw [put_cons, find?, find?]
              by_cases hm : m = n
              · subst hm
                rw [lookup_setItem_self]
                rw [List.prefix_cons_inj] at h h'
                have hput := ih (e := (items.lookup m).getD (directory [])) h h'
                dsimp only
                rw [hput]
                cases items.lookup m with
                | some e => rfl
                | none =>
                    cases q with
                    | nil => exact absurd List.nil_prefix h'
                    | cons k q => rfl
              · rw [lookup_setItem_of_ne hm]

theorem Clear.put (h : e.Clear q) (hpq : p <+: q → p = q) : (e.put p new).Clear q := by
  induction p generalizing e q with
  | nil =>
      obtain rfl := hpq List.nil_prefix
      trivial
  | cons n p ih =>
      cases q with
      | nil => trivial
      | cons m q =>
          cases e with
          | file b => exact h
          | directory items =>
              rw [put_cons]
              intro e he
              by_cases hm : m = n
              · subst hm
                rw [lookup_setItem_self] at he
                obtain rfl := Option.some.inj he
                refine ih (Clear.getD h) fun hp => ?_
                exact (List.cons.inj (hpq (List.prefix_cons_inj m |>.2 hp))).2
              · rw [lookup_setItem_of_ne hm] at he
                exact h e he

theorem Clear.put_append (h : e.Clear p) (hnew : new.Clear q) : (e.put p new).Clear (p ++ q) := by
  induction p generalizing e with
  | nil => cases e <;> exact hnew
  | cons n p ih =>
      cases e with
      | file b => exact absurd h id
      | directory items =>
          rw [put_cons]
          intro f hf
          rw [lookup_setItem_self] at hf
          exact Option.some.inj hf ▸ ih h.getD

theorem find?_put_below (h : e.find? p = some f) :
    (e.put (p ++ q) new).find? p = some (f.put q new) := by
  induction p generalizing e with
  | nil =>
      rw [find?] at h
      rw [← Option.some.inj h, find?]
      rfl
  | cons n p ih =>
      cases e with
      | file b => cases h
      | directory items =>
          rw [find?] at h
          rw [List.cons_append, put_cons, find?, lookup_setItem_self]
          cases hn : items.lookup n with
          | none =>
              rw [hn] at h
              cases h
          | some g =>
              rw [hn] at h
              exact ih h

theorem content?_put (h : e.Clear p) (hnew : ∀ n q, new.find? (n :: q) = none) (q : List Name) :
    ((e.put p new).find? q).map content? =
      if q = p then some new.content? else if q <+: p then some none else if p <+: q then none
      else (e.find? q).map content? := by
  by_cases heq : q = p
  · rw [if_pos heq, heq, find?_put_self h]
    rfl
  rw [if_neg heq]
  by_cases hq : q <+: p
  · obtain ⟨rest, rfl⟩ := hq
    cases rest with
    | nil => exact absurd (List.append_nil q).symm heq
    | cons n rest =>
        obtain ⟨items, hitems⟩ : ∃ items, (e.put (q ++ n :: rest) new).find? q =
            some (directory items) := find?_put_above h
        rw [if_pos (List.prefix_append ..), hitems]
        rfl
  rw [if_neg hq]
  by_cases hp : p <+: q
  · obtain ⟨rest, rfl⟩ := hp
    cases rest with
    | nil => exact absurd (List.append_nil p) heq
    | cons n rest => rw [if_pos (List.prefix_append ..), find?_put_append h, hnew, Option.map_none]
  · rw [if_neg hp, find?_put_of_apart hp hq]

theorem content?_put_file (h : e.Clear p) (q : List Name) (b : Bytes) :
    ((e.put p (file b)).find? q).map content? =
      if q = p then some (some b) else if q <+: p then some none else if p <+: q then none
      else (e.find? q).map content? :=
  content?_put h (fun _ _ => rfl) q

theorem put_put : (e.put p f).put p new = e.put p new := by
  induction p generalizing e with
  | nil => cases e <;> cases f <;> rfl
  | cons n p ih =>
      cases e with
      | file b => rfl
      | directory items => simp [put_cons, setItem_setItem, ih]

theorem put_append (e f : Entry) (p q : List Name) (new : Entry) :
    (e.put p f).put (p ++ q) new = e.put p (f.put q new) := by
  induction p generalizing e with
  | nil => cases e <;> rfl
  | cons n p ih =>
      cases e with
      | file b => rfl
      | directory items => simp [put_cons, setItem_setItem, ih]

/-- The directories on the way are made where they are missing. -/
theorem put_of_find?_eq_none (h : e.find? p = none) (q : List Name) (new : Entry) :
    e.put (p ++ q) new = e.put p ((directory []).put q new) := by
  induction p generalizing e with
  | nil => cases h
  | cons n p ih =>
      cases e with
      | file b => rfl
      | directory items =>
          rw [List.cons_append, put_cons, put_cons]
          rw [find?] at h
          cases hn : items.lookup n with
          | some e =>
              rw [hn] at h
              rw [Option.getD_some, ih h]
          | none =>
              cases p with
              | nil => rfl
              | cons m p => rw [Option.getD_none, ih rfl]

theorem put_of_find? (h : e.find? p = some f) (q : List Name) (new : Entry) :
    e.put (p ++ q) new = e.put p (f.put q new) := by
  induction p generalizing e with
  | nil =>
      obtain rfl := Option.some.inj h
      cases e <;> rfl
  | cons n p ih =>
      cases e with
      | file b => rfl
      | directory items =>
          rw [find?] at h
          rw [List.cons_append, put_cons, put_cons]
          cases hn : items.lookup n with
          | none =>
              rw [hn] at h
              cases h
          | some e =>
              rw [hn] at h
              rw [Option.getD_some, ih h]

theorem put_comm (h : ¬p <+: q) (h' : ¬q <+: p) :
    (e.put p f).put q new = (e.put q new).put p f := by
  induction p generalizing e q with
  | nil => exact absurd List.nil_prefix h
  | cons n p ih =>
      cases q with
      | nil => exact absurd List.nil_prefix h'
      | cons m q =>
          cases e with
          | file b => rfl
          | directory items =>
              rw [put_cons, put_cons, put_cons, put_cons]
              by_cases hm : m = n
              · subst hm
                rw [List.prefix_cons_inj] at h h'
                rw [lookup_setItem_self, lookup_setItem_self, setItem_setItem, setItem_setItem,
                  Option.getD_some, Option.getD_some, ih h h']
              · rw [lookup_setItem_of_ne hm, lookup_setItem_of_ne (Ne.symm hm), setItem_comm hm]

/-- The items of every directory stand in the order of their names. -/
inductive Ordered : Entry → Prop
  | file (b : Bytes) : Ordered (.file b)
  | directory {items : List (Name × Entry)} (order : (items.map Prod.fst).Pairwise (· < ·))
      (inner : ∀ i ∈ items, Ordered i.2) : Ordered (.directory items)

theorem mem_setItem {i : Name × Entry} (h : i ∈ setItem n e items) : i = (n, e) ∨ i ∈ items := by
  induction items with
  | nil => exact .inl (List.mem_singleton.1 h)
  | cons j items ih =>
      rw [setItem_cons] at h
      split_ifs at h
      · rcases List.mem_cons.1 h with rfl | h
        · exact .inl rfl
        · exact .inr (List.mem_cons_of_mem j h)
      · rcases List.mem_cons.1 h with rfl | h
        · exact .inl rfl
        · exact .inr h
      · rcases List.mem_cons.1 h with rfl | h
        · exact .inr (List.mem_cons_self ..)
        · exact (ih h).imp_right (List.mem_cons_of_mem j)

theorem pairwise_setItem (h : (items.map Prod.fst).Pairwise (· < ·)) :
    ((setItem n e items).map Prod.fst).Pairwise (· < ·) := by
  induction items with
  | nil => simp [setItem]
  | cons i items ih =>
      rw [List.map_cons, List.pairwise_cons] at h
      rw [setItem_cons]
      split_ifs with hn hlt
      · subst hn
        exact List.pairwise_cons.2 h
      · refine List.pairwise_cons.2 ⟨?_, List.pairwise_cons.2 h⟩
        rintro m hm
        rcases List.mem_cons.1 hm with rfl | hm
        · exact hlt
        · exact hlt.trans (h.1 m hm)
      · refine List.pairwise_cons.2 ⟨?_, ih h.2⟩
        rintro m hm
        obtain ⟨j, hj, rfl⟩ := List.mem_map.1 hm
        rcases mem_setItem hj with rfl | hj
        · exact lt_of_le_of_ne (not_lt.1 hlt) (Ne.symm hn)
        · exact h.1 j.1 (List.mem_map_of_mem hj)

theorem Ordered.put (h : e.Ordered) (hnew : new.Ordered) (p : List Name) :
    (e.put p new).Ordered := by
  induction p generalizing e with
  | nil => cases e <;> exact hnew
  | cons n p ih =>
      cases h with
      | file b => exact .file b
      | directory order inner =>
          rename_i items
          rw [put_cons]
          refine .directory (pairwise_setItem order) ?_
          intro i hi
          rcases mem_setItem hi with rfl | hi
          · apply ih
            cases hn : items.lookup n with
            | none => exact .directory List.Pairwise.nil nofun
            | some e => exact inner _ (mem_of_lookup hn)
          · exact inner i hi

theorem lookup_eq_some_iff (h : (items.map Prod.fst).Pairwise (· < ·)) :
    items.lookup n = some e ↔ (n, e) ∈ items := by
  refine ⟨mem_of_lookup, fun hmem => ?_⟩
  obtain ⟨before, rest, rfl⟩ := List.append_of_mem hmem
  rw [List.map_append, List.pairwise_append] at h
  refine List.lookup_eq_some_iff.2 ⟨before, rest, rfl, fun i hi => ?_⟩
  rw [bne_iff_ne]
  exact Ne.symm (ne_of_lt (h.2.2 _ (List.mem_map_of_mem hi) n (by simp)))

theorem mem_itemsListing {line : List Name × Option Bytes} :
    line ∈ itemsListing items ↔ ∃ i ∈ items, line ∈ itemListing i := by
  induction items with
  | nil => simp [itemsListing]
  | cons i items ih => simp [itemsListing, ih]

theorem eq_of_mem_itemListing {m : Name} {content : Option Bytes}
    (h : (n :: p, content) ∈ itemListing (m, e)) : m = n := by
  simp only [itemListing, List.mem_cons, List.mem_map, Prod.mk.injEq, List.cons.injEq] at h
  rcases h with ⟨⟨rfl, -⟩, -⟩ | ⟨_, -, ⟨rfl, -⟩, -⟩ <;> rfl

/-- A line for a place below the top stands in the listing exactly when it says what is there. -/
theorem mem_listing (h : e.Ordered) {content : Option Bytes} :
    (p, content) ∈ e.listing ↔ p ≠ [] ∧ (e.find? p).map content? = some content := by
  induction p generalizing e with
  | nil =>
      cases e with
      | file b => simp [listing]
      | directory items =>
          simp only [listing, mem_itemsListing, ne_eq, not_true_eq_false, false_and, iff_false]
          rintro ⟨⟨n, e⟩, -, hline⟩
          simp [itemListing] at hline
  | cons n p ih =>
      cases h with
      | file b => simp [listing, find?]
      | directory order inner =>
          rename_i items
          have hitem (e : Entry) (he : e.Ordered) :
              (n :: p, content) ∈ itemListing (n, e) ↔ (e.find? p).map content? = some content := by
            cases p with
            | nil => simp [itemListing, ih he, find?, eq_comm]
            | cons m p => simp [itemListing, ih he]
          rw [listing, mem_itemsListing, find?]
          cases hn : items.lookup n with
          | none =>
              simp only [Option.map_none, reduceCtorEq, and_false, iff_false]
              rintro ⟨⟨m, e⟩, hi, hline⟩
              obtain rfl := eq_of_mem_itemListing hline
              rw [(lookup_eq_some_iff order).2 hi] at hn
              cases hn
          | some e =>
              have hmem := mem_of_lookup hn
              rw [← hitem e (inner _ hmem)]
              constructor
              · rintro ⟨⟨m, e'⟩, hi, hline⟩
                obtain rfl := eq_of_mem_itemListing hline
                obtain rfl : e = e' :=
                  Option.some.inj (hn.symm.trans ((lookup_eq_some_iff order).2 hi))
                exact ⟨List.cons_ne_nil m p, hline⟩
              · rintro ⟨-, hline⟩
                exact ⟨_, hmem, hline⟩

end Emend.Entry
