import Emend.Proofs.Format.MarkerBlock
import Emend.Proofs.Text.Blank

namespace Emend

/-- Runs of characters of the given kinds, one after another. Each may be empty. -/
def Runs : List (Char → Bool) → Text → Prop
  | [], s => s = []
  | p :: ps, s => ∃ run rest, run.all p = true ∧ Runs ps rest ∧ s = run ++ rest

namespace Runs

variable {p : Char → Bool} {ps : List (Char → Bool)} {s t : Text}

theorem nil (ps : List (Char → Bool)) : Runs ps [] := by
  induction ps with
  | nil => rfl
  | cons p ps ih => exact ⟨[], [], rfl, ih, rfl⟩

theorem suffix (h : Runs ps s) (hs : t <:+ s) : Runs ps t := by
  induction ps generalizing s t with
  | nil =>
      rw [Runs] at h ⊢
      rw [h] at hs
      exact List.suffix_nil.1 hs
  | cons p ps ih =>
      obtain ⟨run, rest, hrun, hrest, rfl⟩ := h
      rcases List.suffix_or_suffix_of_suffix hs (List.suffix_append run rest) with ht | ⟨last, rfl⟩
      · exact ⟨[], t, rfl, ih hrest ht, rfl⟩
      · obtain ⟨lead, hlead⟩ := hs
        rw [← List.append_assoc] at hlead
        rw [← List.append_cancel_right hlead, List.all_append, Bool.and_eq_true] at hrun
        exact ⟨last, rest, hrun.2, hrest, rfl⟩

theorem dropWhile (h : Runs (p :: ps) s) : Runs ps (s.dropWhile p) := by
  obtain ⟨run, rest, hrun, hrest, rfl⟩ := h
  rw [List.dropWhile_append_of_pos (List.all_eq_true.1 hrun)]
  exact hrest.suffix (List.dropWhile_suffix p)

theorem dropEndWhile (h : Runs (p :: ps) s.reverse) : Runs ps (s.dropEndWhile p).reverse := by
  rw [Text.dropEndWhile, List.reverse_reverse]
  exact h.dropWhile

theorem trimStart (h : Runs ps s) : Runs ps s.trimStart :=
  h.suffix (List.dropWhile_suffix isBlank)

end Runs

theorem of_all_not {p : Char → Bool} {o : Option Char} (h : o.all (fun c => !p c) = true) :
    ∀ c, o = some c → p c = false := by
  rintro c rfl
  rwa [Option.all_some, Bool.not_eq_true'] at h

/-- Some of the labels, in their order, each with white space behind it. -/
def Labelling : List Text → Text → Prop
  | [], s => s = []
  | label :: labels, s =>
      Labelling labels s ∨
        ∃ space rest, Text.blank space = true ∧ Labelling labels rest ∧ s = label ++ space ++ rest

theorem dropLabel_of_not_isPrefix {label name : Text} (h : ¬label <+: name) :
    dropLabel name label = name := by
  rw [dropLabel]
  cases hafter : Text.after? label name with
  | none => rfl
  | some rest => exact absurd ⟨rest, (Text.eq_append_of_after? hafter).symm⟩ h

theorem dropLabel_isInfix (name label : Text) : dropLabel name label <:+: name := by
  rw [dropLabel]
  cases hafter : Text.after? label name with
  | none => exact List.infix_rfl
  | some rest =>
      rw [Text.eq_append_of_after? hafter]
      exact (Text.trim_isInfix rest).trans (List.suffix_append label rest).isInfix

theorem not_prefix_of_dropLabel {label name : Text} (hne : label ≠ [])
    (h : dropLabel name label = name) : ¬label <+: name := by
  rintro ⟨rest, rfl⟩
  rw [dropLabel, Text.after?_append] at h
  dsimp only at h
  have hle := (Text.trim_isInfix rest).length_le
  rw [h, List.length_append] at hle
  have := List.length_pos_of_ne_nil hne
  omega

theorem exists_labelling (labels : List Text) (name : Text) :
    ∃ text trail : Text, Labelling labels text ∧ trail.blank = true ∧
      name = text ++ labels.foldl dropLabel name ++ trail := by
  induction labels generalizing name with
  | nil => exact ⟨[], [], rfl, rfl, (List.append_nil name).symm⟩
  | cons label labels ih =>
      obtain ⟨text, trail, htext, htrail, hname⟩ := ih (dropLabel name label)
      rw [List.foldl_cons]
      cases hafter : Text.after? label name with
      | none =>
          have hstep : dropLabel name label = name := by rw [dropLabel, hafter]
          rw [hstep] at hname ⊢
          exact ⟨text, trail, .inl htext, htrail, hname⟩
      | some rest =>
          have hstep : dropLabel name label = rest.trim := by rw [dropLabel, hafter]
          obtain ⟨lead, last, hlead, hlast, hrest⟩ := rest.exists_append_of_trim
          rw [hstep] at hname ⊢
          refine ⟨label ++ lead ++ text, trail ++ last, .inr ⟨lead, text, hlead, htext, rfl⟩, ?_, ?_⟩
          · rw [Text.blank_append, htrail, hlast]
            rfl
          · rw [Text.eq_append_of_after? hafter]
            conv_lhs => rw [hrest, hname]
            simp

theorem labelling_nil (labels : List Text) : Labelling labels [] := by
  induction labels with
  | nil => rfl
  | cons label labels ih => exact .inl ih

theorem Labelling.eq_nil_or {labels : List Text} {text : Text} (h : Labelling labels text) :
    text = [] ∨ ∃ label ∈ labels, label <+: text := by
  induction labels with
  | nil => exact .inl h
  | cons label labels ih =>
      rcases h with h | ⟨space, rest, -, -, rfl⟩
      · rcases ih h with hnil | ⟨other, hmem, hother⟩
        · exact .inl hnil
        · exact .inr ⟨other, List.mem_cons_of_mem _ hmem, hother⟩
      · rw [List.append_assoc]
        exact .inr ⟨label, List.mem_cons_self .., List.prefix_append _ _⟩

/-- Neither of two labels begins the other, and no label starts with a blank. -/
structure Distinct (labels : List Text) : Prop where
  apart : labels.Pairwise fun label other => ¬label <+: other ∧ ¬other <+: label
  ne_nil : [] ∉ labels
  head : ∀ label ∈ labels, ∀ c, label.head? = some c → isBlank c = false

theorem Distinct.tail {label : Text} {labels : List Text} (h : Distinct (label :: labels)) :
    Distinct labels := by
  refine ⟨(List.pairwise_cons.1 h.apart).2, ?_, ?_⟩
  · exact fun hmem => h.ne_nil (List.mem_cons_of_mem _ hmem)
  · exact (List.forall_mem_cons.1 h.head).2

theorem Distinct.trimStart_append {labels : List Text} (h : Distinct labels) {label : Text}
    (hmem : label ∈ labels) (s : Text) : (label ++ s).trimStart = label ++ s := by
  have hne : label ≠ [] := fun hnil => h.ne_nil (hnil ▸ hmem)
  exact Text.dropWhile_append_append [] s hne (h.head label hmem)

theorem pathLabels_head {label : Text} (hmem : label ∈ pathLabels) {c : Char}
    (hc : label.head? = some c) :
    isBlank c = false ∧ (c == '#') = false ∧ isDecoration c = false := by
  have hall : ∀ label ∈ pathLabels,
      label.head?.all (fun c => !(isBlank c || c == '#' || isDecoration c)) = true := by decide
  have hnot := of_all_not (hall label hmem) c hc
  rwa [Bool.or_eq_false_iff, Bool.or_eq_false_iff, and_assoc] at hnot

theorem distinct_pathLabels : Distinct pathLabels := by
  refine ⟨by decide, by decide, ?_⟩
  exact fun label hmem c hc => (pathLabels_head hmem hc).1

section

variable {path : Text} (hne : path ≠ []) (hblank : ∀ c ∈ path, isBlank c = false)

include hne hblank

theorem trim_around (before after : Text) :
    (before ++ path ++ after).trim = before.trimStart ++ path ++ after.trimEnd := by
  apply Text.trim_append_append before after hne
  · exact fun c hc => hblank c (List.mem_of_mem_head? hc)
  · exact fun c hc => hblank c (List.mem_of_getLast? hc)

theorem foldl_dropLabel {labels : List Text} (h : Distinct labels) {text before after : Text}
    (htext : Labelling labels text) (hafter : after.trimEnd = after)
    (hbefore : ∀ label ∈ labels, ¬label <+: before.trimStart ++ path ++ after) :
    labels.foldl dropLabel ((text ++ before).trimStart ++ path ++ after) =
      before.trimStart ++ path ++ after := by
  induction labels generalizing text with
  | nil =>
      rw [Labelling] at htext
      rw [htext]
      rfl
  | cons label labels ih =>
      rw [List.forall_mem_cons] at hbefore
      rw [List.foldl_cons]
      rcases htext with htext | ⟨space, text, hspace, htext, rfl⟩
      · -- the label is not there: what comes first is another one, or no label at all
        have hother : ¬label <+: (text ++ before).trimStart ++ path ++ after := by
          rcases htext.eq_nil_or with rfl | ⟨other, hmem, s, rfl⟩
          · exact hbefore.1
          · have hapart := (List.pairwise_cons.1 h.apart).1 other hmem
            rw [List.append_assoc other, h.trimStart_append (List.mem_cons_of_mem _ hmem)]
            simp only [List.append_assoc]
            intro hlabel
            rcases List.prefix_or_prefix_of_prefix hlabel (List.prefix_append other _) with hp | hp
            · exact hapart.1 hp
            · exact hapart.2 hp
        rw [dropLabel_of_not_isPrefix hother]
        exact ih h.tail htext hbefore.2
      · have hstart : (label ++ space ++ text ++ before).trimStart =
            label ++ (space ++ (text ++ before)) := by
          rw [List.append_assoc, List.append_assoc]
          exact h.trimStart_append (List.mem_cons_self ..) _
        have hrest : (space ++ (text ++ before)).trimStart = (text ++ before).trimStart :=
          List.dropWhile_append_of_pos (List.all_eq_true.1 hspace)
        have hstep : dropLabel ((label ++ space ++ text ++ before).trimStart ++ path ++ after) label =
            (text ++ before).trimStart ++ path ++ after := by
          rw [hstart, List.append_assoc label, List.append_assoc label, dropLabel, Text.after?_append,
            ← hrest]
          dsimp only
          rw [trim_around hne hblank, hafter]
        rw [hstep]
        exact ih h.tail htext hbefore.2

end

/-- Nothing at the ends of a path is what a header may put around it. -/
structure Bare (path : Text) : Prop where
  mark : ∀ c, path.head? = some c → (c == '#') = false
  label : ∀ label ∈ pathLabels, ¬label <+: path
  colon : ∀ c, path.getLast? = some c → (c == ':') = false
  first : ∀ c, path.head? = some c → isDecoration c = false
  last : ∀ c, path.getLast? = some c → isDecoration c = false

/-- The header puts decoration around the path in the order in which it is taken off. What stands
behind the path is told from the end. -/
def Decorates (header path : Text) : Prop :=
  ∃ marks labels opening closing : Text,
    Runs [isBlank, (· == '#'), isBlank] marks ∧ Labelling pathLabels labels ∧
    Runs [isDecoration, isBlank] opening ∧
    Runs [isBlank, (· == ':'), isDecoration, isBlank] closing.reverse ∧
    header = marks ++ labels ++ opening ++ path ++ closing

theorem exists_marks (header : Text) :
    ∃ marks trail : Text, Runs [isBlank, (· == '#'), isBlank] marks ∧ trail.blank = true ∧
      header = marks ++ Text.trim (header.trim.dropWhile (· == '#')) ++ trail := by
  obtain ⟨lead, last, hlead, hlast, hheader⟩ := header.exists_append_of_trim
  obtain ⟨space, trail, hspace, htrail, hname⟩ :=
    Text.exists_append_of_trim (header.trim.dropWhile (· == '#'))
  have hhashes := List.takeWhile_append_dropWhile (p := (· == '#')) (l := header.trim)
  refine ⟨lead ++ (header.trim.takeWhile (· == '#') ++ space), trail ++ last, ?_, ?_, ?_⟩
  · exact ⟨lead, _, hlead, ⟨_, space, List.all_takeWhile, ⟨space, [], hspace, rfl, by simp⟩, rfl⟩, rfl⟩
  · rw [Text.blank_append, htrail, hlast]
    rfl
  · conv_lhs => rw [hheader, ← hhashes, hname]
    simp only [List.append_assoc]

theorem exists_wrapping (name : Text) :
    ∃ opening closing : Text, Runs [isDecoration, isBlank] opening ∧
      Runs [(· == ':'), isDecoration, isBlank] closing.reverse ∧
      name = opening ++ Text.trim (Text.dropEndWhile isDecoration
        ((name.dropEndWhile (· == ':')).dropWhile isDecoration)) ++ closing := by
  obtain ⟨colons, hcolons, hname⟩ := name.exists_append_of_dropEndWhile (· == ':')
  generalize name.dropEndWhile (· == ':') = told at hname ⊢
  have htold := List.takeWhile_append_dropWhile (p := isDecoration) (l := told)
  obtain ⟨quotes, hquotes, hopened⟩ :=
    Text.exists_append_of_dropEndWhile isDecoration (told.dropWhile isDecoration)
  generalize Text.dropEndWhile isDecoration (told.dropWhile isDecoration) = inner at hopened ⊢
  obtain ⟨lead, trail, hlead, htrail, hinner⟩ := inner.exists_append_of_trim
  refine ⟨told.takeWhile isDecoration ++ lead, trail ++ quotes ++ colons, ?_, ?_, ?_⟩
  · exact ⟨_, lead, List.all_takeWhile, ⟨lead, [], hlead, rfl, by simp⟩, rfl⟩
  · rw [List.reverse_append, List.reverse_append]
    refine ⟨_, _, ?_, ⟨_, _, ?_, ⟨trail.reverse, [], ?_, rfl, by simp⟩, rfl⟩, rfl⟩
    · rwa [List.all_reverse, List.all_eq_true]
    · rwa [List.all_reverse, List.all_eq_true]
    · rwa [List.all_reverse]
  · conv_lhs => rw [hname, ← htold, hopened, hinner]
    simp only [List.append_assoc]

/-- Whatever the header, all that is taken off it is decoration. -/
theorem decorates_undecorate (header : Text) : Decorates header (undecorate header) := by
  obtain ⟨marks, last, hmarks, hlast, hheader⟩ := exists_marks header
  obtain ⟨labels, trail, hlabels, htrail, hname⟩ :=
    exists_labelling pathLabels (Text.trim (header.trim.dropWhile (· == '#')))
  obtain ⟨opening, closing, hopening, hclosing, hwrapped⟩ :=
    exists_wrapping (pathLabels.foldl dropLabel (Text.trim (header.trim.dropWhile (· == '#'))))
  refine ⟨marks, labels, opening, closing ++ trail ++ last, hmarks, hlabels, hopening, ?_, ?_⟩
  · rw [List.append_assoc, List.reverse_append]
    refine ⟨_, _, ?_, hclosing, rfl⟩
    rw [List.all_reverse, List.all_append, Bool.and_eq_true]
    exact ⟨htrail, hlast⟩
  · conv_lhs => rw [hheader, hname, hwrapped]
    simp only [List.append_assoc]
    rfl

theorem trimStart_marks {marks s : Text} (hmarks : Runs [isBlank, (· == '#'), isBlank] marks)
    (hs : ∀ c, s.trimStart.head? = some c → (c == '#') = false) :
    Text.trimStart ((marks ++ s).trimStart.dropWhile (· == '#')) = s.trimStart := by
  obtain ⟨lead, hlead, hsplit⟩ := s.blank_append_trimStart
  -- the blanks in front of `s` belong to the last run of the marks
  have hruns : Runs [isBlank, (· == '#'), isBlank] (marks ++ lead) := by
    obtain ⟨first, _, hfirst, ⟨hashes, _, hhashes, ⟨space, _, hspace, rfl, rfl⟩, rfl⟩, rfl⟩ := hmarks
    refine ⟨first, _, hfirst, ⟨hashes, _, hhashes, ⟨space ++ lead, [], ?_, rfl, rfl⟩, rfl⟩, ?_⟩
    · rw [List.all_append, hspace]
      exact hlead
    · simp
  have hblank : ∀ c, s.trimStart.head? = some c → isBlank c = false :=
    fun c => Text.head?_dropWhile
  have hnil : Text.trimStart ((marks ++ lead).trimStart.dropWhile (· == '#')) = [] :=
    hruns.dropWhile.dropWhile.dropWhile
  conv_lhs => rw [hsplit]
  rw [← List.append_assoc, Text.trimStart_append hblank, Text.dropWhile_append hs,
    Text.trimStart_append hblank, hnil, List.nil_append]

theorem head?_trimStart_of_runs {opening : Text} (h : Runs [isDecoration, isBlank] opening)
    {c : Char} (hc : opening.trimStart.head? = some c) : isDecoration c = true := by
  have hblank : isBlank c = false := Text.head?_dropWhile hc
  obtain ⟨run, _, hrun, ⟨space, _, hspace, rfl, rfl⟩, hsplit⟩ := h.trimStart
  rw [hsplit] at hc
  cases run with
  | nil =>
      rw [List.nil_append, List.append_nil] at hc
      rw [List.all_eq_true.1 hspace c (List.mem_of_mem_head? hc)] at hblank
      cases hblank
  | cons d run =>
      rw [List.cons_append, List.head?_cons, Option.some.injEq] at hc
      exact hc ▸ List.all_eq_true.1 hrun d (List.mem_cons_self ..)

theorem point_or_slash_of_looksLikePath {path : Text} (h : looksLikePath path = true) :
    '.' ∈ path ∨ '/' ∈ path := by
  simp only [looksLikePath, Bool.and_eq_true, Bool.or_eq_true, List.contains_iff_mem] at h
  exact h.1.2

theorem not_prefix_pathLabel {path : Text} (h : looksLikePath path = true) :
    ∀ label ∈ pathLabels, ¬path <+: label := by
  have hlabels : ∀ label ∈ pathLabels, '.' ∉ label ∧ '/' ∉ label := by decide
  intro label hmem hpath
  rcases point_or_slash_of_looksLikePath h with hpoint | hslash
  · exact (hlabels label hmem).1 (hpath.subset hpoint)
  · exact (hlabels label hmem).2 (hpath.subset hslash)

theorem Bare.not_label_isPrefix {path opening : Text} (h : Bare path)
    (hpath : looksLikePath path = true) (hopening : Runs [isDecoration, isBlank] opening)
    (after : Text) : ∀ label ∈ pathLabels, ¬label <+: opening.trimStart ++ path ++ after := by
  intro label hmem hlabel
  cases hstart : opening.trimStart with
  | nil =>
      rw [hstart, List.nil_append] at hlabel
      rcases List.prefix_or_prefix_of_prefix hlabel (List.prefix_append path after) with hp | hp
      · exact h.label label hmem hp
      · exact not_prefix_pathLabel hpath label hmem hp
  | cons d rest =>
      have hd : isDecoration d = true := head?_trimStart_of_runs hopening (by rw [hstart]; rfl)
      have hne : label ≠ [] := fun hnil => distinct_pathLabels.ne_nil (hnil ▸ hmem)
      have hhead : label.head? = some d := by
        rw [hstart] at hlabel
        obtain ⟨tail, htail⟩ := hlabel
        rw [← List.head?_append_of_ne_nil label hne, htail]
        rfl
      rw [(pathLabels_head hmem hhead).2.2] at hd
      cases hd

theorem head?_trimStart_labelled {labels opening : Text} (hlabels : Labelling pathLabels labels)
    (hopening : Runs [isDecoration, isBlank] opening) :
    ∀ c, (labels ++ opening).trimStart.head? = some c → (c == '#') = false := by
  rcases hlabels.eq_nil_or with rfl | ⟨label, hmem, rest, rfl⟩
  · intro c hc
    have hdecoration := head?_trimStart_of_runs hopening hc
    by_contra hmark
    rw [Bool.not_eq_false, beq_iff_eq] at hmark
    rw [hmark] at hdecoration
    cases hdecoration
  · rw [List.append_assoc, distinct_pathLabels.trimStart_append hmem, List.head?_append_of_ne_nil]
    · exact fun c hc => (pathLabels_head hmem hc).2.1
    · exact fun hnil => distinct_pathLabels.ne_nil (hnil ▸ hmem)

theorem Bare.undecorate_eq {header path : Text} (h : Bare path) (hpath : looksLikePath path = true)
    (hheader : Decorates header path) : undecorate header = path := by
  obtain ⟨marks, labels, opening, closing, hmarks, hlabels, hopening, hclosing, rfl⟩ := hheader
  have hne := ne_nil_of_looksLikePath hpath
  have hblank := not_blank_of_looksLikePath hpath
  have hunmarked :
      Text.trim ((marks ++ (labels ++ opening) ++ path ++ closing).trim.dropWhile (· == '#')) =
        (labels ++ opening).trimStart ++ path ++ closing.trimEnd := by
    rw [trim_around hne hblank, Text.dropWhile_append_append _ _ hne h.mark,
      trim_around hne hblank, Text.trimEnd_trimEnd,
      trimStart_marks hmarks (head?_trimStart_labelled hlabels hopening)]
  have hunlabelled :
      pathLabels.foldl dropLabel ((labels ++ opening).trimStart ++ path ++ closing.trimEnd) =
        opening.trimStart ++ path ++ closing.trimEnd :=
    foldl_dropLabel hne hblank distinct_pathLabels hlabels closing.trimEnd_trimEnd
      (h.not_label_isPrefix hpath hopening _)
  have hopened : Text.trimStart (opening.trimStart.dropWhile isDecoration) = [] :=
    hopening.trimStart.dropWhile.dropWhile
  have hclosed : Text.trimEnd ((closing.trimEnd.dropEndWhile (· == ':')).dropEndWhile isDecoration) =
      [] := List.reverse_eq_nil_iff.1 hclosing.dropEndWhile.dropEndWhile.dropEndWhile.dropEndWhile
  simp only [undecorate]
  rw [List.append_assoc marks, hunmarked, hunlabelled,
    Text.dropEndWhile_append_append _ _ hne h.colon, Text.dropWhile_append_append _ _ hne h.first,
    Text.dropEndWhile_append_append _ _ hne h.last, trim_around hne hblank, hopened, hclosed,
    List.nil_append, List.append_nil]

section

variable {α : Type} {step : Text → α → Text} {steps : List α}
  (hstep : ∀ a ∈ steps, ∀ s, step s a <:+: s)

include hstep

theorem foldl_isInfix (s : Text) : steps.foldl step s <:+: s := by
  induction steps generalizing s with
  | nil => exact List.infix_rfl
  | cons a steps ih =>
      rw [List.forall_mem_cons] at hstep
      exact (ih hstep.2 (step s a)).trans (hstep.1 s)

theorem eq_self_of_foldl_eq_self {s : Text} (h : steps.foldl step s = s) :
    ∀ a ∈ steps, step s a = s := by
  induction steps with
  | nil => exact List.forall_mem_nil _
  | cons a steps ih =>
      rw [List.forall_mem_cons] at hstep ⊢
      have hself : step s a = s := by
        apply List.infix_antisymm (hstep.1 s)
        have hrest := foldl_isInfix hstep.2 (step s a)
        rwa [← List.foldl_cons, h] at hrest
      rw [List.foldl_cons, hself] at h
      exact ⟨hself, ih hstep.2 h⟩

end

def stages : List (Text → Text) :=
  [Text.trim, List.dropWhile (· == '#'), Text.trim, fun name => pathLabels.foldl dropLabel name,
    Text.dropEndWhile (· == ':'), List.dropWhile isDecoration, Text.dropEndWhile isDecoration,
    Text.trim]

theorem undecorate_eq_foldl_stages (header : Text) :
    undecorate header = stages.foldl (fun name stage => stage name) header := by
  simp only [undecorate, stages, List.foldl_cons, List.foldl_nil]

theorem stage_isInfix : ∀ stage ∈ stages, ∀ name : Text, stage name <:+: name := by
  have hlabels : ∀ name : Text, pathLabels.foldl dropLabel name <:+: name :=
    foldl_isInfix fun label _ name => dropLabel_isInfix name label
  have hstart (p : Char → Bool) (name : Text) : name.dropWhile p <:+: name :=
    (List.dropWhile_suffix p).isInfix
  have hend (p : Char → Bool) (name : Text) : name.dropEndWhile p <:+: name :=
    (Text.dropEndWhile_isPrefix p name).isInfix
  simp only [stages, List.forall_mem_cons]
  exact ⟨Text.trim_isInfix, hstart _, Text.trim_isInfix, hlabels, hend _, hstart _, hend _,
    Text.trim_isInfix, List.forall_mem_nil _⟩

theorem Bare.of_undecorate_eq_self {path : Text} (h : undecorate path = path) : Bare path := by
  rw [undecorate_eq_foldl_stages] at h
  have hstages := eq_self_of_foldl_eq_self stage_isInfix h
  simp only [stages, List.forall_mem_cons] at hstages
  obtain ⟨-, hmark, -, hlabels, hcolon, hfirst, hlast, -⟩ := hstages
  have hlabel := eq_self_of_foldl_eq_self (fun label _ name => dropLabel_isInfix name label) hlabels
  constructor
  case mark => exact fun c hc => Text.head?_dropWhile (p := (· == '#')) (by rwa [hmark])
  case label =>
    intro label hmem
    have hne : label ≠ [] := fun hnil => distinct_pathLabels.ne_nil (hnil ▸ hmem)
    exact not_prefix_of_dropLabel hne (hlabel label hmem)
  case colon => exact fun c hc => Text.getLast?_dropEndWhile (p := (· == ':')) (by rwa [hcolon])
  case first => exact fun c hc => Text.head?_dropWhile (by rwa [hfirst])
  case last => exact fun c hc => Text.getLast?_dropEndWhile (by rwa [hlast])

theorem decorates_self (path : Text) : Decorates path path :=
  ⟨[], [], [], [], Runs.nil _, labelling_nil _, Runs.nil _, Runs.nil _, by simp⟩

theorem pathOfHeader?_eq_some_iff {header path : Text} :
    pathOfHeader? header = some path ↔ looksLikePath path = true ∧ undecorate header = path := by
  simp only [pathOfHeader?, Option.ite_none_right_eq_some, Option.some.injEq]
  constructor
  · rintro ⟨hlooks, rfl⟩
    exact ⟨hlooks, rfl⟩
  · rintro ⟨hlooks, rfl⟩
    exact ⟨hlooks, rfl⟩

/-- Reading a path that a header gave gives the same path just when nothing at its ends is
decoration. Such a path is what a header gives that puts decoration around it in the order in which
it is taken off, and no other header gives it. -/
theorem pathOfHeader?_again_iff (header path : Text) :
    (pathOfHeader? header = some path → (pathOfHeader? path = some path ↔ Bare path)) ∧
      (Bare path →
        (pathOfHeader? header = some path ↔ looksLikePath path = true ∧ Decorates header path)) := by
  constructor
  · intro hheader
    have hlooks := looksLikePath_of_pathOfHeader? hheader
    rw [pathOfHeader?_eq_some_iff]
    constructor
    · exact fun hagain => Bare.of_undecorate_eq_self hagain.2
    · exact fun hbare => ⟨hlooks, hbare.undecorate_eq hlooks (decorates_self path)⟩
  · intro hbare
    rw [pathOfHeader?_eq_some_iff]
    constructor
    · rintro ⟨hlooks, rfl⟩
      exact ⟨hlooks, decorates_undecorate header⟩
    · rintro ⟨hlooks, hdecorates⟩
      exact ⟨hlooks, hbare.undecorate_eq hlooks hdecorates⟩

theorem pathOfHeader?_again_emphasis :
    pathOfHeader? "### File: **src/app.ts**:".toList = some "src/app.ts".toList ∧
      pathOfHeader? "src/app.ts".toList = some "src/app.ts".toList := by
  have hagain := pathOfHeader?_again_iff "### File: **src/app.ts**:".toList "src/app.ts".toList
  have hbare : Bare "src/app.ts".toList := by
    exact ⟨of_all_not (by decide), by decide, of_all_not (by decide),
      of_all_not (by decide), of_all_not (by decide)⟩
  have hdecorates : Decorates "### File: **src/app.ts**:".toList "src/app.ts".toList := by
    refine ⟨"### ".toList, "File: ".toList, "**".toList, "**:".toList, ?_, ?_, ?_, ?_, by decide⟩
    · exact ⟨[], _, rfl, ⟨"###".toList, _, by decide, ⟨" ".toList, [], by decide, rfl, rfl⟩, rfl⟩, rfl⟩
    · exact .inr ⟨" ".toList, [], by decide, labelling_nil _, rfl⟩
    · exact ⟨"**".toList, [], by decide, Runs.nil _, rfl⟩
    · exact ⟨[], _, rfl, ⟨":".toList, _, by decide, ⟨"**".toList, [], by decide, Runs.nil _, rfl⟩,
        rfl⟩, rfl⟩
  have hheader := (hagain.2 hbare).2 ⟨by decide, hdecorates⟩
  exact ⟨hheader, (hagain.1 hheader).2 hbare⟩

/-- The colon is taken off before the emphasis, so it stays when it stands inside. -/
theorem not_forall_pathOfHeader?_again :
    ¬∀ header path : Text, pathOfHeader? header = some path → pathOfHeader? path = some path := by
  intro h
  have hagain := h "**src/app.ts:**".toList "src/app.ts:".toList (by decide)
  have hother : pathOfHeader? "src/app.ts:".toList = some "src/app.ts".toList := by decide
  rw [hother] at hagain
  exact absurd hagain (by decide)

end Emend
