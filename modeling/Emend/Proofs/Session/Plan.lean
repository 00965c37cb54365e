import Emend.Proofs.Format.CodeBlock
import Emend.Proofs.Json.Embedded
import Emend.Proofs.Session.Run
import Emend.Proofs.Wire.Session
import Emend.Session.Plan

namespace Emend.Plan

open Json Json.Value Json.Reader

variable {p q : Plan} {v : Value} {ms : List (Str × Value)}

def isKeyed : Value → Bool
  | .object ms => ms.any fun m => m.1.any (isField fields)
  | _ => false

/-- What a value without a plan's key is taken for. -/
def stray? : Value → Option Plan
  | .object ms => if ms.all (·.1.isSome) then some ⟨[], []⟩ else none
  | .array [] => some ⟨[], []⟩
  | .array [message] => do some ⟨← message.text?, []⟩
  | .array [message, instructions] => do
      some ⟨← message.text?, ← instructions.list? Value.text?⟩
  | _ => none

theorem keyed?_of_not_isKeyed (h : isKeyed (.object ms) = false) :
    keyed? fields ms = if ms.all (·.1.isSome) then some [] else none := by
  induction ms with
  | nil => rfl
  | cons m ms ih =>
      obtain ⟨k, v⟩ := m
      simp only [isKeyed, List.any_cons, Bool.or_eq_false_iff] at h
      cases k with
      | none => rfl
      | some k =>
          have hfield : fieldOf fields k = none := fieldOf_eq_none (by simpa using h.1)
          rw [keyed?, ih h.2, hfield]
          by_cases hall : ms.all (·.1.isSome) = true <;> simp [hall]

theorem ofJson?_of_not_isKeyed (h : isKeyed v = false) : Plan.ofJson? v = stray? v := by
  cases v with
  | object ms =>
      rw [ofJson?, record?, keyed?_of_not_isKeyed h, stray?]
      split <;> rfl
  | array vs =>
      rcases vs with _ | ⟨message, _ | ⟨instructions, _ | ⟨extra, vs⟩⟩⟩
      · rfl
      · rfl
      · rfl
      · simp [ofJson?, record?, stray?, fields]
  | null | bool b | number n | string s => rfl

theorem isKeyed_of_ofJson? (h : Plan.ofJson? (.object ms) = some p) (hp : p.instructions ≠ []) :
    isKeyed (.object ms) = true := by
  by_contra hkeyed
  rw [ofJson?_of_not_isKeyed (Bool.not_eq_true _ ▸ hkeyed), stray?] at h
  split at h <;> cases h
  exact hp rfl

theorem not_around_of_text? {t : Text} (h : v.text? = some t) : ¬Around (.object ms) v := by
  intro haround
  cases haround <;> cases h

theorem not_around_of_texts {ts : List Text} (h : v.list? Value.text? = some ts) :
    ¬Around (.object ms) v := by
  intro haround
  cases haround with
  | self => cases h
  | array hv haround =>
      obtain ⟨t, -, ht⟩ := List.mem_map.1 ((mapM_eq_some_iff.1 h) ▸ List.mem_map_of_mem hv)
      exact not_around_of_text? ht.symm haround

theorem eq_of_around (h : Around (.object ms) v) (hv : Plan.ofJson? v = some q) :
    v = .object ms := by
  cases h with
  | self => rfl
  | @array vs w hw haround =>
      rw [ofJson?_of_not_isKeyed rfl] at hv
      rcases vs with _ | ⟨message, _ | ⟨instructions, _ | ⟨extra, vs⟩⟩⟩
      · cases hw
      · obtain rfl := List.mem_singleton.1 hw
        obtain ⟨t, ht, -⟩ := Option.bind_eq_some_iff.1 hv
        exact absurd haround (not_around_of_text? ht)
      · obtain ⟨t, ht, hv⟩ := Option.bind_eq_some_iff.1 hv
        obtain ⟨ts, hts, -⟩ := Option.bind_eq_some_iff.1 hv
        rcases List.mem_pair.1 hw with rfl | rfl
        · exact absurd haround (not_around_of_text? ht)
        · exact absurd haround (not_around_of_texts hts)
      · cases hv

/-- The names of a plan's fields have characters that stand in strings only. -/
theorem not_isOver_of_isKeyed (h : isKeyed (.object ms) = true) :
    ¬∀ m ∈ ms, Str.IsOver isShared m.1 := by
  intro hover
  obtain ⟨⟨key, v⟩, hm, hany⟩ := List.any_eq_true.1 h
  cases key with
  | none => cases hany
  | some k =>
      have hfield : isField fields k = true := hany
      have hshared : k.all isShared = true := List.all_eq_true.2 (hover _ hm k rfl)
      have hnames : ∀ k ∈ ["message", "editInstructions", "edit_instructions"].map String.toList,
          k.all isShared = false := by decide
      have hname : k ∈ ["message", "editInstructions", "edit_instructions"].map String.toList := by
        simpa [isField, fields, Field.named] using hfield
      rw [hnames k hname] at hshared
      cases hshared

theorem read?_eq_none_of_block {s b : Text} (hb : b ∈ codeBlocks [] s)
    (hread : Json.read? b = some (.object ms)) (hkeyed : isKeyed (.object ms) = true) :
    Json.read? s = none := by
  rw [Option.eq_none_iff_forall_ne_some]
  intro v hwhole
  obtain ⟨skipped, lead, rest, hlead, rfl⟩ := exists_append_of_mem_codeBlocks hb
  obtain ⟨last, hrun, -⟩ := read?_eq_some_iff.1 hwhole
  have hsplit : skipped ++ fence ++ lead ++ b ++ rest =
      skipped ++ ('\x60' :: ('\x60' :: '\x60' :: lead ++ (b ++ rest))) := by simp [fence]
  rw [hsplit, run_append] at hrun
  obtain ⟨s₁, hs₁, hrun⟩ := Option.bind_eq_some_iff.1 hrun
  rw [run_cons] at hrun
  obtain ⟨s₂, hs₂, hrun⟩ := Option.bind_eq_some_iff.1 hrun
  rw [run_append] at hrun
  obtain ⟨s₃, hs₃, hrun⟩ := Option.bind_eq_some_iff.1 hrun
  rw [run_append] at hrun
  obtain ⟨s₄, hs₄, -⟩ := Option.bind_eq_some_iff.1 hrun
  -- outside strings there is no fence, so this one begins inside a string and the block is there
  have hstring : s₁.focus.isString = true := by
    refine (proper_of_run hs₁).resolve_right fun houtside => ?_
    rcases step_of_isOutside houtside hs₂ with ⟨hquote, -⟩ | ⟨hmark, -⟩
    · cases hquote
    · cases hmark
  have hinside : s₂.focus.isInside = true :=
    isInside_of_isString hstring rfl rfl (by decide) hs₂
  have hbeside : ∀ c ∈ '\x60' :: '\x60' :: lead, c ≠ '"' ∧ c ≠ '\\' := by
    rw [List.forall_mem_cons, List.forall_mem_cons]
    refine ⟨by decide, by decide, fun c hc => ?_⟩
    have hc := List.all_eq_true.1 hlead c hc
    constructor <;> rintro rfl <;> cases hc
  exact not_isOver_of_isKeyed hkeyed
    (isOver_of_inside (isInside_run hinside hbeside hs₃) hs₄ hread)

theorem ofResponse_of_findSome? {response : Text}
    (h : (response.trim :: codeBlocks [] response).findSome? read? = some p)
    (causes : List Text) : ofResponse response causes = .ok p := by
  simp only [ofResponse, codeBlocks_trim, h]

/-- The text holds no plan: it is no JSON, or its value is no object with a key of a plan. -/
def IsForeign (t : Text) : Prop := ∀ v, Json.read? t = some v → isKeyed v = false

/-- The text is JSON for an object that is read as the plan. -/
def IsObject (p : Plan) (t : Text) : Prop :=
  ∃ ms, Json.read? t = some (.object ms) ∧ Plan.ofJson? (.object ms) = some p

def strayIn? (t : Text) : Option Plan := (Json.read? t).bind stray?

theorem IsForeign.read?_eq {t : Text} (h : IsForeign t) : read? t = strayIn? t := by
  rw [read?, strayIn?]
  cases hread : Json.read? t with
  | none => rfl
  | some v => exact ofJson?_of_not_isKeyed (h v hread)

theorem findSome?_read?_of_isForeign {bs : List Text} (h : ∀ b ∈ bs, IsForeign b) :
    bs.findSome? read? = bs.findSome? strayIn? := by
  induction bs with
  | nil => rfl
  | cons b bs ih =>
      rw [List.forall_mem_cons] at h
      rw [List.findSome?_cons, List.findSome?_cons, h.1.read?_eq, ih h.2]

/-- The plan's block is found, unless a foreign block before it is taken for a plan. -/
theorem ofResponse_of_block {response block : Text} {before after : List Text}
    (hblocks : codeBlocks [] response = before ++ block :: after) (hplan : p.IsObject block)
    (hp : p.instructions ≠ []) (hforeign : ∀ b ∈ before, IsForeign b) (causes : List Text) :
    ofResponse response causes = .ok ((before.findSome? strayIn?).getD p) := by
  obtain ⟨ms, hread, hjson⟩ := hplan
  have hwhole : Json.read? response.trim = none := by
    refine read?_eq_none_of_block ?_ hread (isKeyed_of_ofJson? hjson hp)
    simp [codeBlocks_trim, hblocks]
  apply ofResponse_of_findSome?
  rw [List.findSome?_cons, read?, hwhole, hblocks, Option.bind_none, List.findSome?_append,
    findSome?_read?_of_isForeign hforeign]
  cases before.findSome? strayIn? with
  | some q => rfl
  | none => simp [read?, hread, hjson]

def planText : Text := "\x7b\"message\":\"m\",\"editInstructions\":[\"a\"]\x7d".toList

theorem isObject_planText : IsObject ⟨"m".toList, ["a".toList]⟩ planText := ⟨_, rfl, rfl⟩

def samplesAround : Text :=
  "```\n[1, 2]\n```\n```json\n".toList ++ planText ++ "\n```\n```\n\x7b\x7d\n```".toList

theorem codeBlocks_samplesAround :
    codeBlocks [] samplesAround = ["[1, 2]".toList, planText, "\x7b\x7d".toList] := by
  decide +kernel

theorem ofResponse_samplesAround :
    codeBlocks [] samplesAround = ["[1, 2]".toList] ++ planText :: ["\x7b\x7d".toList] ∧
      (∀ b ∈ ["[1, 2]".toList], IsForeign b) ∧
      ofResponse samplesAround [] = .ok ⟨"m".toList, ["a".toList]⟩ := by
  have hforeign : ∀ b ∈ ["[1, 2]".toList], IsForeign b := by
    rw [List.forall_mem_singleton]
    rintro v ⟨⟩
    rfl
  refine ⟨codeBlocks_samplesAround, hforeign, ?_⟩
  exact ofResponse_of_block codeBlocks_samplesAround isObject_planText (by decide) hforeign []

def sampleFirst : Text :=
  "```json\n\x7b\"debug\": true\x7d\n```\n```json\n".toList ++ planText ++ "\n```".toList

theorem codeBlocks_sampleFirst :
    codeBlocks [] sampleFirst = ["\x7b\"debug\": true\x7d".toList, planText] := by
  decide +kernel

theorem not_forall_ofResponse_of_block :
    ¬∀ (response block : Text) (before after : List Text) (p : Plan),
      Json.read? response.trim = none → codeBlocks [] response = before ++ block :: after →
      IsObject p block → p.instructions ≠ [] → (∀ b ∈ before ++ after, IsForeign b) →
        ofResponse response [] = .ok p := by
  intro h
  have hwhole : Json.read? sampleFirst.trim = none := rfl
  have hforeign : ∀ b ∈ ["\x7b\"debug\": true\x7d".toList] ++ [], IsForeign b := by
    rw [List.append_nil, List.forall_mem_singleton]
    rintro v ⟨⟩
    rfl
  have hplan := h sampleFirst planText _ [] _ hwhole codeBlocks_sampleFirst isObject_planText
    (by decide) hforeign
  have hempty : ofResponse sampleFirst [] = .ok ⟨[], []⟩ := by
    apply ofResponse_of_findSome?
    rw [codeBlocks_sampleFirst, List.findSome?_cons, read?, hwhole]
    rfl
  rw [hempty] at hplan
  cases hplan

/-- A JSON text of the plan, from brace to brace. -/
structure IsText (p : Plan) (t : Text) : Prop where
  braces : ∃ inner, t = '\x7b' :: inner ++ ['\x7d']
  object : ∃ ms, Json.read? t = some (.object ms) ∧ Plan.ofJson? (.object ms) = some p ∧
    isKeyed (.object ms) = true

theorem isText_render (p : Plan) : p.IsText p.toJson.render := by
  refine ⟨?_, _, Json.read?_render p.hasForm_toJson.wellFormed,
    ofJson?_of_hasForm p.hasForm_toJson, rfl⟩
  have hrender : p.toJson.render = '\x7b' ::
      (renderMember (some "message".toList, .text p.message) ++ ',' ::
        renderMember (some "editInstructions".toList, .array (p.instructions.map Value.text))) ++
      ['\x7d'] := by
    simp [toJson, toFields, Value.record, render, renderMembers]
  exact ⟨_, hrender⟩

theorem braced?_eq {before after inner : Text} (hbefore : '\x7b' ∉ before)
    (hafter : '\x7d' ∉ after) :
    braced? (before ++ ('\x7b' :: inner ++ ['\x7d']) ++ after) =
      some ('\x7b' :: inner ++ ['\x7d']) := by
  have hopened : (before ++ ('\x7b' :: inner ++ ['\x7d']) ++ after).dropWhile (· != '\x7b') =
      '\x7b' :: inner ++ ['\x7d'] ++ after := by
    rw [List.append_assoc, List.dropWhile_append_of_pos]
    · rfl
    · intro c hc
      simpa using ne_of_mem_of_not_mem hc hbefore
  have hclosed : Text.dropEndWhile (· != '\x7d') ('\x7b' :: inner ++ ['\x7d'] ++ after) =
      '\x7b' :: inner ++ ['\x7d'] := by
    rw [Text.dropEndWhile, List.reverse_append, List.dropWhile_append_of_pos]
    · simp
    · intro c hc
      simpa using ne_of_mem_of_not_mem (List.mem_reverse.1 hc) hafter
  simp only [braced?, hopened, hclosed]
  rfl

theorem IsText.trim_eq {t : Text} (h : p.IsText t) (before after : Text) :
    (before ++ t ++ after).trim = before.trimStart ++ t ++ after.trimEnd := by
  obtain ⟨inner, rfl⟩ := h.braces
  apply Text.trim_append_append
  · exact List.cons_ne_nil _ _
  · rintro c ⟨⟩
    rfl
  · intro c hc
    rw [List.getLast?_concat] at hc
    cases hc
    rfl

/-- What is read as a plan in prose around a plan is the plan itself. -/
theorem IsText.eq_of_read? {t before after : Text} (h : p.IsText t) (hbefore : '\x7b' ∉ before)
    (hafter : '\x7b' ∉ after) (hq : read? (before ++ t ++ after) = some q) : q = p := by
  obtain ⟨⟨inner, rfl⟩, ms, hread, hjson, hkeyed⟩ := h
  obtain ⟨v, hv, hq⟩ := Option.bind_eq_some_iff.1 hq
  rcases around_of_read? hread hbefore hafter hv with haround | hover
  · rw [eq_of_around haround hq, hjson] at hq
    exact (Option.some.inj hq).symm
  · exact absurd hover (not_isOver_of_isKeyed hkeyed)

/-- A text of a plan is found in any prose without braces, unless a block of the whole is read as
another plan. -/
theorem ofResponse_of_isText (causes : List Text) :
    p.IsText p.toJson.render ∧ ∀ t before after : Text, p.IsText t →
      ('\x7b' ∉ before ∧ '\x7d' ∉ before) → ('\x7b' ∉ after ∧ '\x7d' ∉ after) →
      (∀ b ∈ codeBlocks [] (before ++ t ++ after), ∀ q, read? b = some q → q = p) →
        ofResponse (before ++ t ++ after) causes = .ok p := by
  refine ⟨isText_render p, fun t before after ht hbefore hafter hblocks => ?_⟩
  have hopen : '\x7b' ∉ before.trimStart := fun h => hbefore.1 (Text.mem_of_mem_trimStart h)
  have hnone : '\x7b' ∉ after.trimEnd := fun h => hafter.1 (Text.mem_of_mem_trimEnd h)
  have hclose : '\x7d' ∉ after.trimEnd := fun h => hafter.2 (Text.mem_of_mem_trimEnd h)
  cases hfound : ((before ++ t ++ after).trim ::
      codeBlocks [] (before ++ t ++ after)).findSome? read? with
  | some q =>
      obtain ⟨b, hb, hq⟩ := List.exists_of_findSome?_eq_some hfound
      have hqp : q = p := by
        rcases List.mem_cons.1 hb with rfl | hb
        · rw [ht.trim_eq] at hq
          exact ht.eq_of_read? hopen hnone hq
        · exact hblocks b hb q hq
      rw [ofResponse_of_findSome? hfound, hqp]
  | none =>
      have hbraced : braced? (before ++ t ++ after).trim = some t := by
        rw [ht.trim_eq]
        obtain ⟨inner, rfl⟩ := ht.braces
        exact braced?_eq hopen hclose
      have hplan : read? t = some p := by
        obtain ⟨ms, hread, hjson, -⟩ := ht.object
        rw [read?, hread]
        exact hjson
      simp only [ofResponse, codeBlocks_trim, hfound, hbraced, hplan]

def fencePlan : Plan := ⟨"```".toList, ["a\n\x7b".toList]⟩

theorem ofResponse_fencePlan :
    ofResponse ("Here it is:\n```json\n".toList ++ fencePlan.toJson.render ++ "\n```\n".toList) [] =
      .ok fencePlan := by
  have hblocks : codeBlocks []
      ("Here it is:\n```json\n".toList ++ fencePlan.toJson.render ++ "\n```\n".toList) =
      ["\x7b\"message\":\"".toList] := by
    decide +kernel
  refine (ofResponse_of_isText []).2 _ _ _ (isText_render fencePlan) (by decide) (by decide) ?_
  rw [hblocks, List.forall_mem_singleton]
  rintro q ⟨⟩

end Emend.Plan
