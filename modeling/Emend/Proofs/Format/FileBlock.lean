import Emend.Proofs.Format.EditFormat
import Emend.Proofs.Format.Fence
import Emend.Proofs.Format.MarkerBlock
import Emend.Session.Message
import Mathlib.Data.List.TakeWhile

namespace Emend

namespace Text

section

variable {pat : Text} {c : Char} (h : c ∉ pat)

include h

theorem startsWith_append_cons (s t : Text) :
    startsWith (s ++ c :: t) pat = startsWith s pat := by
  induction pat generalizing s with
  | nil => rfl
  | cons p pat ih =>
      simp only [List.mem_cons, not_or] at h
      cases s with
      | nil => simp [startsWith, after?, Ne.symm h.1]
      | cons d s =>
          by_cases hd : p = d
          · simpa [startsWith, after?, hd] using ih h.2 s
          · simp [startsWith, after?, hd]

omit h in
theorem includes_cons (d : Char) (s : Text) :
    includes (d :: s) pat = (startsWith (d :: s) pat || includes s pat) := by
  rw [includes, cut?, startsWith, includes]
  cases after? pat (d :: s) <;> simp

theorem includes_append_cons (hne : pat ≠ []) (s t : Text) :
    includes (s ++ c :: t) pat = (includes s pat || includes t pat) := by
  induction s with
  | nil =>
      have hnil : includes [] pat = false := by
        rw [includes_eq_false_iff]
        cases pat with
        | nil => exact absurd rfl hne
        | cons p pat => rfl
      have hstart : startsWith (c :: t) pat = false := by
        rw [← List.nil_append (c :: t), startsWith_append_cons h]
        cases pat with
        | nil => exact absurd rfl hne
        | cons p pat => rfl
      simp [includes_cons, hnil, hstart]
  | cons d s ih =>
      rw [List.cons_append, includes_cons, ih, includes_cons, ← List.cons_append,
        startsWith_append_cons h, Bool.or_assoc]

end

theorem lines_append_feed (s : Text) : lines (s ++ ['\n']) = s.pieces.map dropReturn := by
  have h (ls : List Text) : linesOfPieces (ls ++ [[]]) = ls.map dropReturn := by
    induction ls with
    | nil => rfl
    | cons l ls ih =>
        rw [List.cons_append, linesOfPieces, ih, List.map_cons]
        simp
  rw [lines, pieces_append_feed, ← h]
  rfl

theorem find?_lines {before header : Text} (hbefore : ∀ c, before.getLast? = some c → c = '\n')
    (hline : IsLine header) (hblank : header.blank = false) :
    (before ++ header ++ ['\n']).lines.reverse.find? (!·.blank) = some header := by
  obtain ⟨above, habove⟩ : ∃ above, pieces (before ++ header) = above ++ [header] := by
    rcases List.eq_nil_or_concat before with rfl | ⟨init, last, rfl⟩
    · exact ⟨[], pieces_of_no_feed hline.no_feed⟩
    · obtain rfl := hbefore last (by simp)
      refine ⟨pieces init, ?_⟩
      rw [List.concat_eq_append, List.append_assoc, List.singleton_append, pieces_append_feed,
        pieces_of_no_feed hline.no_feed]
  rw [lines_append_feed, habove, List.map_append, List.map_singleton, dropReturn_of_isLine hline,
    List.reverse_append, List.reverse_singleton, List.singleton_append, List.find?_cons_of_pos]
  simp [hblank]

theorem no_feed_takeWhile_isBlank {s : Text}
    (h : ∀ l, s.pieces.head? = some l → l.blank = false) : '\n' ∉ s.takeWhile isBlank := by
  intro hmem
  obtain ⟨as, bs, hsplit, hno⟩ := List.eq_append_cons_of_mem hmem
  have hs : s = as ++ '\n' :: (bs ++ s.dropWhile isBlank) := by
    rw [← List.cons_append, ← List.append_assoc, ← hsplit, List.takeWhile_append_dropWhile]
  have hblank : blank as = true := by
    rw [blank, List.all_eq_true]
    intro c hc
    have hc' : c ∈ s.takeWhile isBlank := by simp [hsplit, hc]
    exact List.all_eq_true.1 List.all_takeWhile c hc'
  have hfirst := h as (by rw [hs, pieces_append_cons hno]; rfl)
  rw [hblank] at hfirst
  cases hfirst

end Text

theorem trimBody_of_first_line {s : Text} (h : ∀ l, s.pieces.head? = some l → l.blank = false) :
    trimBody s = s.trimEnd := by
  have hindent : ((s.takeWhile isBlank).reverse.takeWhile (· != '\n')).reverse =
      s.takeWhile isBlank := by
    rw [List.takeWhile_eq_self_iff.2, List.reverse_reverse]
    intro c hc
    have hne : c ≠ '\n' := by
      rintro rfl
      exact Text.no_feed_takeWhile_isBlank h (List.mem_reverse.1 hc)
    simpa using hne
  simp only [trimBody, hindent, List.takeWhile_append_dropWhile]

namespace Snapshot

/-- A file that a prompt shows as it is: neither path nor content ends a block early, the path is
found in its brackets, and the content has no blank lines or spaces at its ends but one final line
feed. -/
structure Showable (f : Snapshot) : Prop where
  path_no_fence : Text.includes f.path fence = false
  header : pathOfHeader? ('[' :: f.path ++ [']']) = some f.path
  content_no_fence : Text.includes f.content fence = false
  first_line : ∀ l, f.content.pieces.head? = some l → l.blank = false
  ending : ∃ body c, f.content = body ++ [c, '\n'] ∧ isBlank c = false

def block (f : Snapshot) : FileBlock := ⟨f.path, f.content.dropLast⟩

def header (f : Snapshot) : Text := '[' :: f.path ++ [']']

theorem formatFile_eq (f : Snapshot) :
    Prompt.formatFile f = f.header ++ ['\n'] ++ fence ++ ('\n' :: f.content ++ ['\n']) ++ fence := by
  simp [Prompt.formatFile, header, fence]

namespace Showable

variable {f : Snapshot} (h : f.Showable)

include h

theorem looksLikePath : looksLikePath f.path = true := looksLikePath_of_pathOfHeader? h.header

theorem isLine_header : Text.IsLine f.header := by
  have hpath := not_blank_of_looksLikePath h.looksLikePath
  have hfeed : '\n' ∉ f.path := fun hmem => absurd (hpath _ hmem) (by decide)
  refine ⟨by simpa [Snapshot.header] using hfeed, ?_⟩
  rw [Snapshot.header, List.getLast?_concat]
  decide

omit h in
theorem header_not_blank : f.header.blank = false := by
  have hbracket : isBlank '[' = false := by decide
  simp [Snapshot.header, Text.blank, hbracket]

theorem includes_raw : Text.includes ('\n' :: f.content ++ ['\n']) fence = false := by
  have hfeed := fence_ne_feed (c := '\n') rfl
  rw [Text.includes_append_cons hfeed (by decide), ← List.nil_append ('\n' :: f.content),
    Text.includes_append_cons hfeed (by decide), h.content_no_fence]
  rfl

theorem includes_opening {gap : Text} (hgap : Text.includes gap fence = false) :
    Text.includes (gap ++ f.header ++ ['\n']) fence = false := by
  have hopen : '[' ∉ fence := by decide
  have hclose : ']' ∉ fence := by decide
  rw [Text.includes_append_cons (fence_ne_feed rfl) (by decide), Snapshot.header,
    ← List.append_assoc, Text.includes_append_cons hclose (by decide),
    Text.includes_append_cons hopen (by decide), hgap, h.path_no_fence]
  rfl

theorem trimBody_content : trimBody (f.content ++ ['\n']) = f.content.dropLast := by
  obtain ⟨body, c, hcontent, hc⟩ := h.ending
  have hfirst : ∀ l, (f.content ++ ['\n']).pieces.head? = some l → l.blank = false := by
    intro l hl
    rw [Text.pieces_append_feed, List.head?_append_of_ne_nil _ (Text.pieces_ne_nil _)] at hl
    exact h.first_line l hl
  have hdrop : f.content.dropLast = body ++ [c] := by
    rw [hcontent, List.dropLast_append_of_ne_nil (by simp)]
    rfl
  have hsplit : f.content ++ ['\n'] = (body ++ [c]) ++ ['\n', '\n'] := by simp [hcontent]
  rw [trimBody_of_first_line hfirst, hdrop, hsplit, Text.trimEnd_append_of_blank (by decide)]
  apply Text.trimEnd_eq_self
  intro d hd
  simp only [List.getLast?_append, List.getLast?_singleton, Option.some_or,
    Option.some.injEq] at hd
  rwa [← hd]

theorem ofFenced?_eq {before : Text} (hbefore : ∀ c, before.getLast? = some c → c = '\n') :
    FileBlock.ofFenced? (.ofRaw (before ++ f.header ++ ['\n']) ('\n' :: f.content ++ ['\n'])) =
      some f.block := by
  have hraw : Fenced.ofRaw (before ++ f.header ++ ['\n']) ('\n' :: f.content ++ ['\n']) =
      ⟨before ++ f.header ++ ['\n'], [], f.content ++ ['\n']⟩ := rfl
  have hpath : pathOfHeader? f.header = some f.path := h.header
  have hfind := Text.find?_lines hbefore h.isLine_header header_not_blank
  rw [hraw, FileBlock.ofFenced?, if_neg (by nofun)]
  dsimp only
  rw [hfind, h.trimBody_content]
  dsimp only [bind, Option.bind]
  rw [hpath]
  rfl

/-- The first block of a text that shows the file is the file's. -/
theorem fencedFrom_formatFile (gap : Text) (hgap : Text.includes gap fence = false)
    (before rest : Text) :
    ∃ before', fencedFrom [] before (gap ++ Prompt.formatFile f ++ rest) =
      .ofRaw (before ++ gap ++ f.header ++ ['\n']) ('\n' :: f.content ++ ['\n']) ::
        fencedFrom [] before' rest := by
  have hopen : Text.cut? (fence ++ []) (gap ++ Prompt.formatFile f ++ rest) =
      some (gap ++ f.header ++ ['\n'], ('\n' :: f.content ++ ['\n']) ++ fence ++ rest) := by
    rw [List.append_nil, ← Text.cut?_append (h.includes_opening hgap) ?_
      (('\n' :: f.content ++ ['\n']) ++ fence ++ rest), formatFile_eq]
    · simp
    · intro c hc
      simp only [List.getLast?_append, List.getLast?_singleton, Option.some_or,
        Option.some.injEq] at hc
      exact fence_ne_feed hc.symm
  have hclose : Text.cut? fence (('\n' :: f.content ++ ['\n']) ++ fence ++ rest) =
      some ('\n' :: f.content ++ ['\n'], rest) := by
    apply Text.cut?_append h.includes_raw
    intro c hc
    simp only [List.getLast?_append, List.getLast?_singleton, Option.some_or,
      Option.some.injEq] at hc
    exact fence_ne_feed hc.symm
  have hfirst := @fencedFrom_of_cut [] before _ _ _ _ _ hopen hclose
  rw [← List.append_assoc before, ← List.append_assoc before] at hfirst
  exact ⟨_, hfirst⟩

end Showable

end Snapshot

namespace FileBlock

theorem formatFiles_cons (f : Snapshot) (fs : FileSet) :
    Prompt.formatFiles (f :: fs) =
      Prompt.formatFile f ++ fs.flatMap (['\n', '\n'] ++ Prompt.formatFile ·) := by
  induction fs generalizing f with
  | nil => simp [Prompt.formatFiles, List.intercalate]
  | cons g fs ih =>
      have hsplit : Prompt.formatFiles (f :: g :: fs) =
          Prompt.formatFile f ++ (['\n', '\n'] ++ Prompt.formatFiles (g :: fs)) := by
        simp [Prompt.formatFiles, List.intercalate]
      rw [hsplit, ih, List.flatMap_cons, List.append_assoc]

theorem filterMap_fencedFrom {fs : FileSet} (h : ∀ f ∈ fs, f.Showable) (before : Text) :
    (fencedFrom [] before (fs.flatMap (['\n', '\n'] ++ Prompt.formatFile ·))).filterMap ofFenced? =
      fs.map Snapshot.block := by
  induction fs generalizing before with
  | nil => rw [List.flatMap_nil, fencedFrom_of_none (by rfl)]; rfl
  | cons f fs ih =>
      rw [List.forall_mem_cons] at h
      obtain ⟨before', hfirst⟩ := h.1.fencedFrom_formatFile ['\n', '\n'] (by decide) before
        (fs.flatMap (['\n', '\n'] ++ Prompt.formatFile ·))
      have hfeed : ∀ c, (before ++ ['\n', '\n']).getLast? = some c → c = '\n' := by
        intro c hc
        simpa using hc.symm
      rw [List.flatMap_cons, hfirst, List.filterMap_cons, h.1.ofFenced?_eq hfeed, ih h.2]
      rfl

theorem ofMarkdown_formatFiles {files : FileSet} (h : ∀ f ∈ files, f.Showable) :
    ofMarkdown (Prompt.formatFiles files) = files.map Snapshot.block := by
  cases files with
  | nil => rw [ofMarkdown, fenced, fencedFrom_of_none (by rfl)]; rfl
  | cons f fs =>
      rw [List.forall_mem_cons] at h
      obtain ⟨before', hfirst⟩ := h.1.fencedFrom_formatFile [] (by decide) []
        (fs.flatMap (['\n', '\n'] ++ Prompt.formatFile ·))
      rw [List.nil_append] at hfirst
      rw [ofMarkdown, fenced, formatFiles_cons, hfirst, List.filterMap_cons,
        h.1.ofFenced?_eq (by simp), filterMap_fencedFrom h.2]
      rfl

end FileBlock

end Emend
