import Emend.Text.Encoding
import Mathlib.Data.List.Basic
import Mathlib.Tactic.SplitIfs

namespace Emend.Utf8

theorem lead_one {b : Nat} (h : b < 0x80) : lead b = (.between, [some (Char.ofNat b)]) := by
  rw [lead, if_pos h]

theorem lead_two {b : Nat} (h : 0xC2 ≤ b ∧ b ≤ 0xDF) :
    lead b = (.inside 1 0x80 0xBF (b - 0xC0), []) := by
  rw [lead, if_neg (by omega), if_pos h]

theorem lead_three {b : Nat} (h : 0xE0 ≤ b ∧ b ≤ 0xEF) :
    lead b = (.inside 2 (if b = 0xE0 then 0xA0 else 0x80) (if b = 0xED then 0x9F else 0xBF)
      (b - 0xE0), []) := by
  rw [lead, if_neg (by omega), if_neg (by omega)]
  by_cases h0 : b = 0xE0
  · subst h0
    rfl
  by_cases hD : b = 0xED
  · subst hD
    rfl
  rw [if_neg h0, if_neg hD, if_pos (by omega), if_neg h0, if_neg hD]

theorem lead_four {b : Nat} (h : 0xF0 ≤ b ∧ b ≤ 0xF4) :
    lead b = (.inside 3 (if b = 0xF0 then 0x90 else 0x80) (if b = 0xF4 then 0x8F else 0xBF)
      (b - 0xF0), []) := by
  rw [lead, if_neg (by omega), if_neg (by omega), if_neg (by omega), if_neg (by omega),
    if_neg (by omega)]
  by_cases h0 : b = 0xF0
  · subst h0
    rfl
  by_cases h4 : b = 0xF4
  · subst h4
    rfl
  rw [if_neg h0, if_pos (by omega), if_neg h0, if_neg h4]

theorem next_last {owed low high bits b : Nat} (ho : owed ≤ 1) (h : low ≤ b ∧ b ≤ high) :
    next (.inside owed low high bits) b =
      (.between, [some (Char.ofNat (bits * 64 + (b - 0x80)))]) := by
  rw [next, if_pos h]
  exact if_pos ho

theorem next_owing {owed low high bits b : Nat} (ho : 1 < owed) (h : low ≤ b ∧ b ≤ high) :
    next (.inside owed low high bits) b =
      (.inside (owed - 1) 0x80 0xBF (bits * 64 + (b - 0x80)), []) := by
  rw [next, if_pos h]
  exact if_neg (by omega)

theorem next_broken {owed low high bits b : Nat} (h : ¬(low ≤ b ∧ b ≤ high)) :
    next (.inside owed low high bits) b = ((lead b).1, none :: (lead b).2) := by
  rw [next, if_neg h]

theorem unitsFrom_cons (p : Point) (b : UInt8) (bs : Bytes) :
    unitsFrom p (b :: bs) = (next p b.toNat).2 ++ unitsFrom (next p b.toNat).1 bs := by
  cases p <;> rfl

theorem toNat_ofNat {n : Nat} (h : n < 256) : (UInt8.ofNat n).toNat = n := by
  rw [UInt8.toNat_ofNat']
  omega

theorem unitsFrom_utf8EncodeChar (c : Char) (bs : Bytes) :
    unitsFrom .between (String.utf8EncodeChar c ++ bs) = some c :: unitsFrom .between bs := by
  have hvalid : c.val.toNat < 55296 ∨ 57343 < c.val.toNat ∧ c.val.toNat < 1114112 := c.valid
  have hc : Char.ofNat c.val.toNat = c := Char.ofNat_toNat c
  rw [String.utf8EncodeChar]
  generalize c.val.toNat = v at hvalid hc
  have hlow : v % 64 + 128 < 256 := by omega
  have hmid : v / 64 % 64 + 128 < 256 := by omega
  -- One case for each number of bytes: the bits gathered from them are the code point again.
  split_ifs with h1 h2 h3
  · rw [List.cons_append, unitsFrom_cons, toNat_ofNat (by omega), next, lead_one (by omega), hc]
    rfl
  · have hbits : (v / 64 % 32 + 192 - 192) * 64 + (v % 64 + 128 - 128) = v := by omega
    rw [List.cons_append, unitsFrom_cons, toNat_ofNat (by omega), next, lead_two (by omega),
      List.cons_append, unitsFrom_cons, toNat_ofNat hlow, next_last (Nat.le_refl 1) (by omega), hbits, hc]
    rfl
  · have hbits : ((v / 4096 % 16 + 224 - 224) * 64 + (v / 64 % 64 + 128 - 128)) * 64 +
        (v % 64 + 128 - 128) = v := by omega
    rw [List.cons_append, unitsFrom_cons, toNat_ofNat (by omega), next, lead_three (by omega),
      List.cons_append, unitsFrom_cons, toNat_ofNat hmid,
      next_owing (by omega) (by split_ifs <;> omega),
      List.cons_append, unitsFrom_cons, toNat_ofNat hlow, next_last (Nat.le_refl 1) (by omega), hbits, hc]
    rfl
  · have hbits : (((v / 262144 % 8 + 240 - 240) * 64 + (v / 4096 % 64 + 128 - 128)) * 64 +
        (v / 64 % 64 + 128 - 128)) * 64 + (v % 64 + 128 - 128) = v := by omega
    rw [List.cons_append, unitsFrom_cons, toNat_ofNat (by omega), next, lead_four (by omega),
      List.cons_append, unitsFrom_cons, toNat_ofNat (by omega),
      next_owing (by omega) (by split_ifs <;> omega),
      List.cons_append, unitsFrom_cons, toNat_ofNat hmid, next_owing (by omega) (by omega),
      List.cons_append, unitsFrom_cons, toNat_ofNat hlow, next_last (Nat.le_refl 1) (by omega), hbits, hc]
    rfl

theorem units_encode_append (s : Text) (bs : Bytes) :
    units (encode s ++ bs) = s.map some ++ units bs := by
  induction s with
  | nil => rfl
  | cons c s ih =>
      rw [encode, List.flatMap_cons, List.append_assoc, units, unitsFrom_utf8EncodeChar]
      exact congrArg (some c :: ·) ih

theorem decodeLossy_encode (s : Text) : decodeLossy (encode s) = s := by
  have h := units_encode_append s []
  rw [List.append_nil] at h
  have hid : ((·.getD replacementChar) ∘ some : Char → Char) = id := rfl
  rw [decodeLossy, h, List.map_append, List.map_map, hid, List.map_id]
  exact List.append_nil s

theorem decode?_encode (s : Text) : decode? (encode s) = some s := by
  have h := units_encode_append s []
  have hsome : (id ∘ some : Char → Option Char) = pure := rfl
  rw [List.append_nil] at h
  rw [decode?, h, units, unitsFrom, List.append_nil, List.mapM_map, hsome, List.mapM_pure,
    List.map_id']
  rfl

theorem encode_injective {s t : Text} (h : encode s = encode t) : s = t := by
  rw [← decodeLossy_encode s, h, decodeLossy_encode]

theorem encode_append (s t : Text) : encode (s ++ t) = encode s ++ encode t := List.flatMap_append

def isTrail (b : UInt8) : Bool := 0x80 ≤ b.toNat && b.toNat ≤ 0xBF

/-- The number of bytes that do not continue a character. -/
def starts (bs : Bytes) : Nat := bs.countP (!isTrail ·)

theorem utf8EncodeChar_eq_cons (c : Char) :
    ∃ b bs, String.utf8EncodeChar c = b :: bs ∧ isTrail b = false ∧ ∀ b' ∈ bs, isTrail b' = true := by
  have hvalid : c.val.toNat < 55296 ∨ 57343 < c.val.toNat ∧ c.val.toNat < 1114112 := c.valid
  rw [String.utf8EncodeChar]
  generalize c.val.toNat = v at hvalid
  have htrail {n : Nat} (hn : 0x80 ≤ n ∧ n ≤ 0xBF) : isTrail (UInt8.ofNat n) = true := by
    rw [isTrail, toNat_ofNat (by omega)]
    simpa using hn
  have hlead {n : Nat} (hn : n < 256) (h : n < 0x80 ∨ 0xBF < n) :
      isTrail (UInt8.ofNat n) = false := by
    rw [isTrail, toNat_ofNat hn]
    simp only [Bool.and_eq_false_iff, decide_eq_false_iff_not]
    omega
  have hlow : isTrail (UInt8.ofNat (v % 64 + 128)) = true := htrail (by omega)
  have hmid : isTrail (UInt8.ofNat (v / 64 % 64 + 128)) = true := htrail (by omega)
  have hhigh : isTrail (UInt8.ofNat (v / 4096 % 64 + 128)) = true := htrail (by omega)
  split_ifs with h1 h2 h3
  · exact ⟨_, _, rfl, hlead (by omega) (by omega), by simp⟩
  · exact ⟨_, _, rfl, hlead (by omega) (by omega), by simpa only [List.forall_mem_singleton]⟩
  · refine ⟨_, _, rfl, hlead (by omega) (by omega), ?_⟩
    rw [List.forall_mem_cons, List.forall_mem_singleton]
    exact ⟨hmid, hlow⟩
  · refine ⟨_, _, rfl, hlead (by omega) (by omega), ?_⟩
    rw [List.forall_mem_cons, List.forall_mem_cons, List.forall_mem_singleton]
    exact ⟨hhigh, hmid, hlow⟩

theorem starts_encode (s : Text) : starts (encode s) = s.length := by
  induction s with
  | nil => rfl
  | cons c s ih =>
      obtain ⟨b, bs, hc, hb, hbs⟩ := utf8EncodeChar_eq_cons c
      have hnone : bs.countP (!isTrail ·) = 0 := by
        rw [List.countP_eq_zero]
        intro b' hb'
        simp [hbs b' hb']
      rw [starts] at ih
      rw [starts, encode, List.flatMap_cons, hc, List.countP_append, List.countP_cons, hnone]
      rw [encode] at ih
      simp [ih, hb, Nat.add_comm]

/-- The next byte that an open character allows continues a character. -/
def Point.Trails : Point → Prop
  | .between => True
  | .inside _ low high _ => 0x80 ≤ low ∧ high ≤ 0xBF

def Point.begun : Point → Nat
  | .between => 0
  | .inside .. => 1

theorem lead_trails (b : Nat) : (lead b).1.Trails := by
  rw [lead]
  split_ifs <;> simp [Point.Trails]

theorem next_trails (p : Point) (b : Nat) : (next p b).1.Trails := by
  cases p with
  | between => exact lead_trails b
  | inside owed low high bits =>
      by_cases hb : low ≤ b ∧ b ≤ high
      · rcases Nat.lt_or_ge 1 owed with ho | ho
        · rw [next_owing ho hb]
          exact ⟨Nat.le_refl _, Nat.le_refl _⟩
        · rw [next_last ho hb]
          trivial
      · rw [next_broken hb]
        exact lead_trails b

theorem length_lead (b : Nat) : (lead b).2.length + (lead b).1.begun = 1 := by
  rw [lead]
  split_ifs <;> rfl

theorem begun_le_next {p : Point} (hp : p.Trails) (b : UInt8) :
    p.begun + (if isTrail b then 0 else 1) ≤
      (next p b.toNat).2.length + (next p b.toNat).1.begun := by
  cases p with
  | between =>
      rw [next, length_lead, Point.begun]
      split_ifs <;> omega
  | inside owed low high bits =>
      by_cases hb : low ≤ b.toNat ∧ b.toNat ≤ high
      · have htrail : isTrail b = true := by
          obtain ⟨hlow, hhigh⟩ := hp
          simp only [isTrail, Bool.and_eq_true, decide_eq_true_eq]
          omega
        rw [if_pos htrail]
        rcases Nat.lt_or_ge 1 owed with ho | ho
        · rw [next_owing ho hb]
          exact Nat.le_refl _
        · rw [next_last ho hb]
          exact Nat.le_refl _
      · have hlead := length_lead b.toNat
        rw [next_broken hb, List.length_cons, Point.begun]
        dsimp only
        split_ifs <;> omega

theorem starts_le_length_unitsFrom {p : Point} (hp : p.Trails) (bs : Bytes) :
    p.begun + starts bs ≤ (unitsFrom p bs).length := by
  induction bs generalizing p with
  | nil => cases p <;> simp [Point.begun, starts, unitsFrom]
  | cons b bs ih =>
      have hstep := begun_le_next hp b
      have hrest := ih (next_trails p b.toNat)
      have hcount : starts (b :: bs) = starts bs + if isTrail b then 0 else 1 := by
        rw [starts, starts, List.countP_cons]
        cases isTrail b <;> rfl
      rw [unitsFrom_cons, List.length_append, hcount]
      omega

theorem starts_le_length_decodeLossy (bs : Bytes) : starts bs ≤ (decodeLossy bs).length := by
  have h := starts_le_length_unitsFrom (p := .between) trivial bs
  rwa [Point.begun, Nat.zero_add, ← units, ← List.length_map (·.getD replacementChar)] at h

theorem starts_lt_length_decodeLossy {b : UInt8} (hb : isTrail b = true) (bs : Bytes) :
    starts (b :: bs) < (decodeLossy (b :: bs)).length := by
  have hrange : 0x80 ≤ b.toNat ∧ b.toNat ≤ 0xBF := by simpa [isTrail] using hb
  have hlead : lead b.toNat = (.between, [none]) := by
    rw [lead]
    split_ifs <;> first | rfl | omega
  have hrest := starts_le_length_decodeLossy bs
  rw [decodeLossy, List.length_map, units] at hrest
  rw [decodeLossy, List.length_map, units, unitsFrom_cons, next, hlead, starts,
    List.countP_cons_of_neg (by simp [hb])]
  exact Nat.lt_succ_of_le hrest

/-- A cut of a text's bytes in front of no trailing byte is a cut of the text. -/
theorem exists_eq_append_of_encode {s : Text} {bs rest : Bytes} (h : encode s = bs ++ rest)
    (hrest : ∀ b ∈ rest.head?, isTrail b = false) :
    ∃ t u, bs = encode t ∧ rest = encode u := by
  induction s generalizing bs with
  | nil =>
      obtain ⟨rfl, rfl⟩ := List.append_eq_nil_iff.1 h.symm
      exact ⟨[], [], rfl, rfl⟩
  | cons c s ih =>
      rcases bs with _ | ⟨b, bs⟩
      · exact ⟨[], c :: s, rfl, h.symm⟩
      have hcons : String.utf8EncodeChar c ++ encode s = b :: bs ++ rest := h
      rcases List.append_eq_append_iff.1 hcons with ⟨as, hbs, has⟩ | ⟨as, hc, has⟩
      · obtain ⟨t, u, rfl, hu⟩ := ih has
        exact ⟨c :: t, u, hbs, hu⟩
      · rcases as with _ | ⟨a, as⟩
        · exact ⟨[c], s, by simpa [encode] using hc.symm, has⟩
        · -- What is left of the character is trailing bytes.
          obtain ⟨b', bs', hc', -, htrail⟩ := utf8EncodeChar_eq_cons c
          rw [hc', List.cons_append] at hc
          obtain ⟨-, rfl⟩ := List.cons.inj hc
          have ha := htrail a (by simp)
          rw [hrest a (by simp [has])] at ha
          cases ha

theorem exists_eq_encode_of_heads {s : Text} {chunks : List Bytes}
    (h : chunks.flatten = encode s)
    (hheads : ∀ chunk ∈ chunks, ∀ b ∈ chunk.head?, isTrail b = false) :
    ∀ chunk ∈ chunks, ∃ t, chunk = encode t := by
  induction chunks generalizing s with
  | nil => nofun
  | cons chunk chunks ih =>
      rw [List.forall_mem_cons] at hheads
      have hrest : ∀ b ∈ chunks.flatten.head?, isTrail b = false := by
        intro b hb
        rw [List.head?_flatten, Option.mem_def, List.findSome?_eq_some_iff] at hb
        obtain ⟨before, first, after, rfl, hfirst, -⟩ := hb
        exact hheads.2 first (by simp) b hfirst
      obtain ⟨t, u, ht, hu⟩ := exists_eq_append_of_encode h.symm hrest
      rw [List.forall_mem_cons]
      exact ⟨⟨t, ht⟩, ih hu hheads.2⟩

theorem length_decodeLossy_of_flatMap {chunks : List Bytes}
    (h : (chunks.flatMap decodeLossy).length ≤ starts chunks.flatten) :
    ∀ chunk ∈ chunks, (decodeLossy chunk).length ≤ starts chunk := by
  have htotal (cs : List Bytes) : starts cs.flatten ≤ (cs.flatMap decodeLossy).length := by
    induction cs with
    | nil => exact Nat.le_refl 0
    | cons c cs ih =>
        have hc := starts_le_length_decodeLossy c
        rw [starts] at ih hc ⊢
        rw [List.flatten_cons, List.countP_append, List.flatMap_cons, List.length_append]
        omega
  induction chunks with
  | nil => nofun
  | cons c cs ih =>
      have hc := starts_le_length_decodeLossy c
      have hcs := htotal cs
      rw [List.flatMap_cons, List.length_append, List.flatten_cons, starts, List.countP_append,
        ← starts, ← starts] at h
      rw [List.forall_mem_cons]
      exact ⟨by omega, ih (by omega)⟩

/-- Decoded chunk by chunk, the bytes of a text give the text exactly when every chunk is the
encoding of a text. -/
theorem flatMap_decodeLossy_eq_iff {s : Text} {chunks : List Bytes}
    (h : chunks.flatten = encode s) :
    chunks.flatMap decodeLossy = s ↔ ∀ chunk ∈ chunks, ∃ t, chunk = encode t := by
  constructor
  · intro hs
    have htotal : (chunks.flatMap decodeLossy).length = starts chunks.flatten := by
      rw [hs, h, starts_encode]
    have hlen := length_decodeLossy_of_flatMap (Nat.le_of_eq htotal)
    refine exists_eq_encode_of_heads h fun chunk hchunk b hb => ?_
    obtain ⟨bs, rfl⟩ : ∃ bs, chunk = b :: bs := List.head?_eq_some_iff.1 hb
    by_contra htrail
    have hlt := starts_lt_length_decodeLossy (by simpa using htrail) bs
    have := hlen _ hchunk
    omega
  · intro hchunks
    refine encode_injective (h ▸ ?_)
    clear h
    induction chunks with
    | nil => rfl
    | cons c cs ih =>
        rw [List.forall_mem_cons] at hchunks
        obtain ⟨⟨t, rfl⟩, hcs⟩ := hchunks
        rw [List.flatMap_cons, encode_append, ih hcs, decodeLossy_encode, List.flatten_cons]

end Emend.Utf8
