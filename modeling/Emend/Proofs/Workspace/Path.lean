import Emend.Proofs.Text.Utf8
import Emend.Workspace.Disk
import Mathlib.Data.List.Infix

namespace Emend

/-- A name that stands for an entry of a directory. -/
structure PlainName (n : Name) : Prop where
  ne_nil : n ≠ []
  ne_point : n ≠ ['.']
  ne_up : n ≠ ['.', '.']
  no_slash : '/' ∉ n
  no_zero : '\x00' ∉ n
  short : n.byteLength ≤ Disk.nameLimit

instance (n : Name) : Decidable (PlainName n) :=
  decidable_of_iff
    (n ≠ [] ∧ n ≠ ['.'] ∧ n ≠ ['.', '.'] ∧ '/' ∉ n ∧ '\x00' ∉ n ∧ n.byteLength ≤ Disk.nameLimit)
    ⟨fun ⟨h, h', h'', hs, hz, hl⟩ => ⟨h, h', h'', hs, hz, hl⟩,
      fun h => ⟨h.ne_nil, h.ne_point, h.ne_up, h.no_slash, h.no_zero, h.short⟩⟩

/-- Names with slashes between them. -/
def PlainPath (t : Text) : Prop := ∀ n ∈ stretches t, PlainName n

instance (t : Text) : Decidable (PlainPath t) := inferInstanceAs (Decidable (∀ n ∈ _, _))

theorem Text.byteLength_append (s t : Text) :
    Text.byteLength (s ++ t) = s.byteLength + t.byteLength := by
  rw [byteLength, Utf8.encode_append, List.length_append]
  rfl

theorem stretches_ne_nil (s : Text) : stretches s ≠ [] := by
  cases s with
  | nil => simp [stretches]
  | cons c s =>
      by_cases h : c = '/'
      · simp [stretches, h]
      · cases hs : stretches s <;> simp [stretches, h, hs]

theorem intercalate_stretches (s : Text) : ['/'].intercalate (stretches s) = s := by
  induction s with
  | nil => rfl
  | cons c s ih =>
      cases hs : stretches s with
      | nil => exact absurd hs (stretches_ne_nil s)
      | cons t ts =>
          rw [hs] at ih
          by_cases h : c = '/'
          · simpa [stretches, h, hs, List.intercalate] using ih
          · cases ts <;> simp_all [stretches, List.intercalate]

theorem stretches_of_no_slash {n : Name} (h : '/' ∉ n) : stretches n = [n] := by
  induction n with
  | nil => rfl
  | cons c n ih =>
      simp only [List.mem_cons, not_or] at h
      simp [stretches, Ne.symm h.1, ih h.2]

theorem stretches_append_slash (s t : Text) :
    stretches (s ++ '/' :: t) = stretches s ++ stretches t := by
  induction s with
  | nil => simp [stretches]
  | cons c s ih =>
      by_cases h : c = '/'
      · simp [stretches, h, ih]
      · cases hs : stretches s with
        | nil => exact absurd hs (stretches_ne_nil s)
        | cons u us => simp [stretches, h, ih, hs]

theorem stretches_below {ns : List Name} (h : ∀ n ∈ ns, PlainName n) (t : Text) :
    stretches (ns.flatMap (· ++ ['/']) ++ t) = ns ++ stretches t := by
  induction ns with
  | nil => rfl
  | cons n ns ih =>
      rw [List.forall_mem_cons] at h
      rw [List.flatMap_cons, List.append_assoc, List.append_assoc, List.singleton_append,
        stretches_append_slash, stretches_of_no_slash h.1.no_slash, ih h.2, List.singleton_append,
        List.cons_append]

theorem PlainName.ofStretch?_eq {n : Name} (h : PlainName n) :
    Part.ofStretch? n = some (.name n) := by
  simp [Part.ofStretch?, h.ne_nil, h.ne_point, h.ne_up]

theorem parts_ofStretches (start : Nat) (ss : List Text) :
    (Step.ofStretches start ss).map Step.part = ss.filterMap Part.ofStretch? := by
  induction ss generalizing start with
  | nil => rfl
  | cons s ss ih => cases h : Part.ofStretch? s <;> simp [Step.ofStretches, h, ih]

theorem filterMap_ofStretch? {ns : List Name} (h : ∀ n ∈ ns, PlainName n) :
    ns.filterMap Part.ofStretch? = ns.map Part.name := by
  rw [← List.filterMap_eq_map]
  exact List.filterMap_congr fun n hn => (h n hn).ofStretch?_eq

theorem reach_ofStretches (start : Nat) {ss : List Text} {s : Step}
    (h : s ∈ Step.ofStretches start ss) :
    s.reach ≤ start + Text.byteLength (['/'].intercalate ss) := by
  induction ss generalizing start with
  | nil => cases h
  | cons t ss ih =>
      rw [Step.ofStretches, List.mem_append] at h
      have hslash : Text.byteLength ['/'] = 1 := rfl
      cases ss with
      | nil =>
          rcases h with h | h
          · obtain ⟨part, -, rfl⟩ : ∃ part, Part.ofStretch? t = some part ∧
                (⟨part, start + t.byteLength⟩ : Step) = s := by simpa using h
            simp [List.intercalate]
          · cases h
      | cons u us =>
          have hjoin : ['/'].intercalate (t :: u :: us) =
              t ++ (['/'] ++ ['/'].intercalate (u :: us)) := by
            simp [List.intercalate]
          rw [hjoin, Text.byteLength_append, Text.byteLength_append, hslash]
          rcases h with h | h
          · obtain ⟨part, -, rfl⟩ : ∃ part, Part.ofStretch? t = some part ∧
                (⟨part, start + t.byteLength⟩ : Step) = s := by simpa using h
            exact Nat.add_le_add_left (Nat.le_add_right ..) start
          · have := ih _ h
            omega

/-- The steps lead through plain names, and none ends too far behind in the path's text. -/
structure Leads (steps : List Step) (ns : List Name) : Prop where
  parts : steps.map Step.part = ns.map Part.name
  plain : ∀ n ∈ ns, PlainName n
  reach : ∀ s ∈ steps, s.reach < Disk.pathLimit

/-- The path leads through plain names to a file, and the system takes it. -/
structure Path.LeadsTo (p : Path) (ns : List Name) : Prop where
  leads : Leads p.steps ns
  ending : p.ending = .plain
  size : p.size < Disk.pathLimit

namespace PlainPath

variable {t : Text} (h : PlainPath t)

include h

theorem ne_nil : t ≠ [] := by
  rintro rfl
  exact (h [] (by simp [stretches])).ne_nil rfl

theorem not_absolute : (Path.ofText t).absolute = false := by
  cases t with
  | nil => rfl
  | cons c t =>
      have hc : c ≠ '/' := by
        rintro rfl
        exact (h [] (by simp [stretches])).ne_nil rfl
      simp [Path.ofText, hc]

theorem ending : (Path.ofText t).ending = .plain := by
  have hslash : t.getLast?.all (· == '/') = false := by
    cases hlast : t.getLast? with
    | none => exact absurd (List.getLast?_eq_none_iff.1 hlast) h.ne_nil
    | some c =>
        obtain ⟨init, rfl⟩ := List.getLast?_eq_some_iff.1 hlast
        have hc : c ≠ '/' := by
          rintro rfl
          have hnil : [] ∈ stretches (init ++ ['/']) := by simp [stretches_append_slash, stretches]
          exact (h [] hnil).ne_nil rfl
        simpa using hc
  simp only [Path.ofText]
  split
  · rename_i hpoint
    have hmem := List.mem_of_getLast? hpoint
    exact absurd rfl (h _ (List.mem_filter.1 hmem).1).ne_point
  · rw [hslash]
    rfl

theorem parts : (Path.ofText t).steps.map Step.part = (stretches t).map Part.name := by
  rw [Path.ofText, parts_ofStretches, filterMap_ofStretch? h]

theorem names : (Path.ofText t).names = stretches t := by
  rw [Path.names, Path.parts, h.parts, List.filterMap_map]
  exact List.filterMap_some

end PlainPath

theorem parts_ofNames {root : List Name} (h : ∀ n ∈ root, PlainName n) :
    (Path.ofNames root).steps.map Step.part = root.map Part.name := by
  have hstretches : stretches ('/' :: root.flatMap (· ++ ['/'])) = [] :: (root ++ [[]]) := by
    have hbelow := stretches_below h []
    rw [List.append_nil] at hbelow
    rw [← List.nil_append ('/' :: _), stretches_append_slash, hbelow]
    rfl
  have hnone : Part.ofStretch? [] = none := rfl
  rw [Path.ofNames, Path.ofText, parts_ofStretches, hstretches, List.filterMap_cons, hnone,
    List.filterMap_append, filterMap_ofStretch? h]
  simp [hnone]

theorem PlainPath.leadsTo_inside {t : Text} (h : PlainPath t) {root : List Name}
    (hroot : ∀ n ∈ root, PlainName n)
    (hfit : (Path.ofNames root).size + t.byteLength < Disk.pathLimit) :
    ((Path.ofText t).inside root).LeadsTo (root ++ stretches t) := by
  have hinside : (Path.ofText t).inside root =
      { Path.ofText t with
        absolute := true
        steps := (Path.ofNames root).steps ++
          (Path.ofText t).steps.map fun s => { s with reach := (Path.ofNames root).size + s.reach }
        size := (Path.ofNames root).size + t.byteLength } := by
    rw [Path.inside, if_neg (by simp [h.not_absolute])]
    rfl
  rw [hinside]
  refine ⟨⟨?_, ?_, ?_⟩, h.ending, hfit⟩
  · rw [List.map_append, parts_ofNames hroot, List.map_map, List.map_append, ← h.parts]
    rfl
  · intro n hn
    rcases List.mem_append.1 hn with hn | hn
    · exact hroot n hn
    · exact h n hn
  · intro s hs
    rcases List.mem_append.1 hs with hs | hs
    · have hreach := reach_ofStretches 0 hs
      rw [intercalate_stretches, Nat.zero_add] at hreach
      exact Nat.lt_of_le_of_lt hreach (Nat.lt_of_le_of_lt (Nat.le_add_right ..) hfit)
    · obtain ⟨u, hu, rfl⟩ := List.mem_map.1 hs
      have hreach := reach_ofStretches 0 hu
      rw [intercalate_stretches, Nat.zero_add] at hreach
      exact Nat.lt_of_le_of_lt (Nat.add_le_add_left hreach _) hfit

end Emend
