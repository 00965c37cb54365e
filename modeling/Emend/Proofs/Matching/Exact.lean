import Emend.Proofs.Matching.Optimum
import Emend.Proofs.Score.Double
import Emend.Proofs.Similarity

namespace Emend

open Double

def oneInMany : Float := Score.quotient 1 (pow2 50)

def nearOne : Float := Score.ofNat 1 - oneInMany

theorem inUnit_oneInMany : InUnit oneInMany :=
  inUnit_quotient (by decide) (by decide) (by decide)

theorem inUnit_nearOne : InUnit nearOne := inUnit_one_sub inUnit_oneInMany

theorem val_quotient_mono {a b d n : ℕ} (had : a ≤ d) (hnb : n ≤ b) (hn : 0 < n) (hdn : d ≤ n)
    (hb : b ≤ 2 ^ 100) : val (Score.quotient a b) ≤ val (Score.quotient d n) := by
  obtain ⟨hq, -, -, hone⟩ := rounds_quotient hn hdn (hnb.trans hb)
  obtain ⟨hq', -, -, -⟩ := rounds_quotient (hn.trans_le hnb) ((had.trans hdn).trans hnb) hb
  rw [hq.2, hq'.2]
  refine Nearest.round_mono (div_le_div₀ ?_ ?_ (by linarith) ?_)
  · exact Nearest.round_zero ▸ Nearest.round_mono (Nat.cast_nonneg _)
  · exact Nearest.round_mono (by exact_mod_cast had)
  · exact Nearest.round_mono (by exact_mod_cast hnb)

theorem le_val_quotient {s t : Text} (h : s ≠ t) (hs : s.length < word) (ht : t.length ≤ pow2 48) :
    val oneInMany ≤ val (Score.quotient (indel s t) (s.length + t.length)) := by
  have hpos := length_add_pos h
  have hone : 1 ≤ indel s t := Nat.pos_of_ne_zero fun h0 => h (eq_of_indel_eq_zero h0)
  have hfar := length_sub_length_le_indel s t
  have hle : indel s t ≤ s.length + t.length := Nat.sub_le _ _
  rcases le_or_gt (s.length + t.length) (pow2 50) with hshort | hlong
  · exact val_quotient_mono hone hshort hpos hle (by decide)
  · -- Lengths this far apart are a distance of their own.
    have hp48 : pow2 48 = 2 ^ 48 := rfl
    have hp50 : pow2 50 = 2 ^ 50 := rfl
    have hword : word = 2 ^ 64 := rfl
    have hcoarse : IsNumber (Score.quotient (2 ^ 49) (2 ^ 65)) :=
      (inUnit_quotient (by decide) (by decide) (by decide)).isFinite.isNumber
    have hcrude : val oneInMany ≤ val (Score.quotient (2 ^ 49) (2 ^ 65)) := by
      rw [← not_lt_iff hcoarse inUnit_oneInMany.isFinite.isNumber]
      decide +kernel
    exact hcrude.trans (val_quotient_mono (by omega) (by omega) hpos hle (by decide))

theorem val_similarity_le {s t : Text} (h : s ≠ t) (hs : s.length < word)
    (ht : t.length ≤ pow2 48) : val (similarity s t) ≤ val nearOne := by
  have hquot := le_val_quotient h hs ht
  have hp48 : pow2 48 = 2 ^ 48 := rfl
  have hword : word = 2 ^ 64 := rfl
  have hunit : InUnit (Score.quotient (indel s t) (s.length + t.length)) :=
    inUnit_quotient (length_add_pos h) (Nat.sub_le _ _) (by omega)
  rw [similarity, if_neg h, nearOne, (rounds_sub inUnit_ofNat_one.isFinite hunit.isFinite).2,
    (rounds_sub inUnit_ofNat_one.isFinite inUnit_oneInMany.isFinite).2]
  exact Nearest.round_mono (by linarith)

/-- The score that three similarities add up to under the standard policy. -/
def standardScore (body first last : Float) : Float :=
  Score.ofNat 1 * body + (Score.ofNat 3 * first + Score.ofNat 3 * last)

def fullScore : Float := standardScore (Score.ofNat 1) (Score.ofNat 1) (Score.ofNat 1)

section

variable {x y z x' y' z' : Float}

theorem mul_mono {w : Float} (hw : IsFinite w) (hpos : 0 ≤ val w) (hx : IsFinite x)
    (hx' : IsFinite x') (h : val x ≤ val x') : val (w * x) ≤ val (w * x') := by
  rw [(rounds_mul hw hx).2, (rounds_mul hw hx').2]
  exact Nearest.round_mono (mul_le_mul_of_nonneg_left h hpos)

theorem isFinite_ofNat_three : IsFinite (Score.ofNat 3) := rfl

theorem isFinite_one_mul (hx : InUnit x) : IsFinite (Score.ofNat 1 * x) :=
  (mul_inUnit inUnit_ofNat_one.isFinite hx).1

theorem isFinite_three_mul (hx : InUnit x) : IsFinite (Score.ofNat 3 * x) :=
  (mul_inUnit isFinite_ofNat_three hx).1

theorem isNumber_ends (hy : InUnit y) (hz : InUnit z) :
    IsNumber (Score.ofNat 3 * y + Score.ofNat 3 * z) :=
  isNumber_add (isFinite_three_mul hy) (isFinite_three_mul hz).isNumber

theorem isNumber_standardScore (hx : InUnit x) (hy : InUnit y) (hz : InUnit z) :
    IsNumber (standardScore x y z) := isNumber_add (isFinite_one_mul hx) (isNumber_ends hy hz)

theorem standardScore_mono (hx : InUnit x) (hy : InUnit y) (hz : InUnit z) (hx' : InUnit x')
    (hy' : InUnit y') (hz' : InUnit z') (hxx : val x ≤ val x') (hyy : val y ≤ val y')
    (hzz : val z ≤ val z') : val (standardScore x y z) ≤ val (standardScore x' y' z') := by
  have h3 : 0 ≤ val (Score.ofNat 3) := by
    rw [(rounds_ofNat 3).2]
    exact Nearest.round_zero ▸ Nearest.round_mono (Nat.cast_nonneg _)
  have hbody := mul_mono inUnit_ofNat_one.isFinite inUnit_ofNat_one.nonneg hx.isFinite hx'.isFinite
    hxx
  have hfirst := mul_mono isFinite_ofNat_three h3 hy.isFinite hy'.isFinite hyy
  have hlast := mul_mono isFinite_ofNat_three h3 hz.isFinite hz'.isFinite hzz
  have hends := Double.add_le_add (isFinite_three_mul hy) (isFinite_three_mul hy')
    (isFinite_three_mul hz).isNumber (isFinite_three_mul hz').isNumber hfirst hlast
  exact Double.add_le_add (isFinite_one_mul hx) (isFinite_one_mul hx') (isNumber_ends hy hz)
    (isNumber_ends hy' hz') hbody hends

theorem standardScore_lt_fullScore (hx : InUnit x) (hy : InUnit y) (hz : InUnit z)
    (h : val x ≤ val nearOne ∨ val y ≤ val nearOne ∨ val z ≤ val nearOne) :
    standardScore x y z < fullScore := by
  have hfrom {a b c : Float} (ha : InUnit a) (hb : InUnit b) (hc : InUnit c)
      (hxa : val x ≤ val a) (hyb : val y ≤ val b) (hzc : val z ≤ val c)
      (hlt : standardScore a b c < fullScore) : standardScore x y z < fullScore := by
    have hle := standardScore_mono hx hy hz ha hb hc hxa hyb hzc
    rw [lt_iff_val] at hlt ⊢
    exact ⟨isNumber_standardScore hx hy hz, hlt.2.1, hle.trans_lt hlt.2.2⟩
  have hone {a : Float} (ha : InUnit a) : val a ≤ val (Score.ofNat 1) := by
    rw [val_ofNat_one]
    exact ha.le_one
  rcases h with h | h | h
  · exact hfrom inUnit_nearOne inUnit_ofNat_one inUnit_ofNat_one h (hone hy) (hone hz)
      (by decide +kernel)
  · exact hfrom inUnit_ofNat_one inUnit_nearOne inUnit_ofNat_one (hone hx) h (hone hz)
      (by decide +kernel)
  · exact hfrom inUnit_ofNat_one inUnit_ofNat_one inUnit_nearOne (hone hx) (hone hy) h
      (by decide +kernel)

end

/-- The lines agree in what the standard policy compares. -/
def Agrees (query lines : List Text) : Prop :=
  lines.headD [] = query.headD [] ∧ lines.getLastD [] = query.getLastD [] ∧
    collapse lines = collapse query

instance (query lines : List Text) : Decidable (Agrees query lines) :=
  inferInstanceAs (Decidable (_ ∧ _))

theorem blockScore_eq_fullScore {query lines : List Text} (h : Agrees query lines) :
    blockScore (.standard : MatchPolicy Float) query lines = fullScore := by
  obtain ⟨hfirst, hlast, hbody⟩ := h
  rw [blockScore, endpointScore]
  rw [hfirst, hlast, hbody, similarity, similarity, similarity, if_pos rfl, if_pos rfl, if_pos rfl]
  rfl

theorem blockScore_lt_fullScore {query lines : List Text} (h : ¬Agrees query lines)
    (hlines : (Text.terminated lines).length ≤ word)
    (hquery : (Text.terminated query).length ≤ pow2 48 + 1) :
    blockScore (.standard : MatchPolicy Float) query lines < fullScore := by
  have hword : pow2 48 < word := by decide
  have hbound {m n : ℕ} (hm : m ≤ (Text.terminated lines).length - 1)
      (hn : n ≤ (Text.terminated query).length - 1) : m < word ∧ n < word ∧ n ≤ pow2 48 := by
    omega
  obtain ⟨hl, hq, hbody⟩ := hbound (length_collapse_le lines) (length_collapse_le query)
  obtain ⟨hl', hq', hfirst⟩ := hbound (length_headD_le lines) (length_headD_le query)
  obtain ⟨hl'', hq'', hlast⟩ := hbound (length_getLastD_le lines) (length_getLastD_le query)
  refine standardScore_lt_fullScore (inUnit_similarity hl hq) (inUnit_similarity hl' hq')
    (inUnit_similarity hl'' hq'') ?_
  rw [Agrees] at h
  by_cases hf : lines.headD [] = query.headD []
  · by_cases hla : lines.getLastD [] = query.getLastD []
    · exact .inl (val_similarity_le (fun hb => h ⟨hf, hla, hb⟩) hl hbody)
    · exact .inr (.inr (val_similarity_le hla hl'' hlast))
  · exact .inr (.inl (val_similarity_le hf hl' hfirst))

theorem wins_of_slice_eq {query lines : List Text} {w : Window}
    (hw : w ∈ windows (.standard : MatchPolicy Float) query lines) (hslice : w.slice lines = query)
    (hunique : ∀ v ∈ windows (.standard : MatchPolicy Float) query lines, v ≠ w →
      ¬Agrees query (v.slice lines))
    (hlines : (Text.terminated lines).length ≤ word)
    (hquery : (Text.terminated query).length ≤ pow2 48 + 1) :
    Wins (scoreOf (.standard : MatchPolicy Float) query lines)
        (windows (.standard : MatchPolicy Float) query lines) w ∧
      scoreOf (.standard : MatchPolicy Float) query lines w = fullScore := by
  have hfull : scoreOf (.standard : MatchPolicy Float) query lines w = fullScore :=
    blockScore_eq_fullScore (hslice ▸ ⟨rfl, rfl, rfl⟩)
  refine ⟨⟨hw, fun v hv => ?_⟩, hfull⟩
  rw [hfull]
  by_cases hvw : v = w
  · rw [hvw, hfull]
    exact ⟨LawfulScore.lt_irrefl _, fun h => absurd h (Window.not_before_self w)⟩
  · have hlt : scoreOf (.standard : MatchPolicy Float) query lines v < fullScore :=
      blockScore_lt_fullScore (hunique v hv hvw)
        ((length_terminated_slice_le v lines).trans hlines) hquery
    exact ⟨not_lt_of_lt hlt, fun _ => hlt⟩

end Emend
