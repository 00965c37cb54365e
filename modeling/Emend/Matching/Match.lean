import Emend.Similarity

namespace Emend

structure Window where
  start : Nat
  last : Nat
deriving DecidableEq, Repr

instance : Ord Window where
  compare := compareLex (compareOn Window.start) (compareOn Window.last)

namespace Window

def before (v w : Window) : Bool :=
  v.start < w.start || v.start == w.start && v.last < w.last

def slice {β : Type} (w : Window) (lines : List β) : List β :=
  (lines.drop w.start).take (w.last + 1 - w.start)

def Fits (w : Window) (docLen : Nat) : Prop := w.start ≤ w.last ∧ w.last < docLen

/-- The last lines of windows from `start` on lie from `lowest` up to `highest`, which is not
included. Sums of line numbers wrap at a word. -/
def lowest (queryLen docLen tolerance start : Nat) : Nat :=
  min docLen (max start ((start + queryLen) % word - tolerance))

def highest (queryLen docLen tolerance start : Nat) : Nat :=
  min docLen ((start + queryLen + tolerance) % word)

/-- All windows whose length differs from the query's by at most the tolerance, in order. -/
def candidates (queryLen docLen tolerance : Nat) : List Window :=
  (List.range docLen).flatMap fun start =>
    let low := lowest queryLen docLen tolerance start
    let high := highest queryLen docLen tolerance start
    (List.range' low (high - low)).map (⟨start, ·⟩)

end Window

structure MatchPolicy (α : Type) where
  windowTolerance : Nat
  bodyWeight : α
  endpointWeight : α
  minScore : α

structure Match (α : Type) where
  block : Text
  score : α

/-- The block that stands for an empty query. No file holds it. -/
def unmatchableBlock : Text := "SUPERDOCSTHISSTRINGWILLNEVEREVERBEFOUND".toList

section

variable {α : Type} [Score α]

def noScore : α := -Score.ofNat 1

namespace MatchPolicy

def standard : MatchPolicy α := ⟨5, Score.ofNat 1, Score.ofNat 3, noScore⟩

def maxScore (p : MatchPolicy α) : α := p.bodyWeight + Score.ofNat 2 * p.endpointWeight

end MatchPolicy

namespace Match

def none : Match α := ⟨[], noScore⟩

def insertion (score : α) : Match α := ⟨unmatchableBlock, score⟩

def isInsertion (m : Match α) : Bool := m.block == unmatchableBlock

def isFound (m : Match α) : Bool := decide (noScore < m.score) && !m.isInsertion

end Match

structure Best (α : Type) where
  score : α
  window : Option Window

namespace Best

def start : Best α := ⟨noScore, .none⟩

def earlier (b : Best α) (w : Window) : Bool := b.window.all w.before

/-- Takes a window with a higher score, or an earlier one with the same score. -/
def offer (b : Best α) (w : Window) (score : α) : Best α :=
  if b.score < score ∨ (score == b.score) = true ∧ b.earlier w then ⟨score, some w⟩ else b

def raise (b : Best α) (w : Window) (score : α) : Best α :=
  if b.score < score then ⟨score, some w⟩ else b

end Best

def queryLines (query : Text) : List Text :=
  ((query.lines.dropWhile Text.blank).reverse.dropWhile Text.blank).reverse

variable (p : MatchPolicy α)

def endpointScore (first last : α) : α := p.endpointWeight * first + p.endpointWeight * last

def blockScore (query lines : List Text) : α :=
  p.bodyWeight * similarity (collapse lines) (collapse query) +
    endpointScore p (similarity (lines.headD []) (query.headD []))
      (similarity (lines.getLastD []) (query.getLastD []))

def bestOf (query lines : List Text) : Best α :=
  (Window.candidates query.length lines.length p.windowTolerance).foldl
    (fun b w => b.raise w (blockScore p query (w.slice lines))) .start

structure Ranked (α : Type) where
  window : Window
  endpoints : α

def Ranked.order : Ranked α → Ranked α → Ordering :=
  compareLex (fun a b => compare b.endpoints a.endpoints) (compareOn Ranked.window)

def Ranked.le (a b : Ranked α) : Bool := (Ranked.order a b).isLE

/-- The candidate windows with their endpoint scores, best first. The similarities are computed
once for each line. -/
def ranked (query lines : List Text) : List (Ranked α) :=
  let firsts : List α := lines.map (similarity · (query.headD []))
  let lasts : List α := lines.map (similarity · (query.getLastD []))
  let found := (Window.candidates query.length lines.length p.windowTolerance).filterMap fun w =>
    match firsts[w.start]?, lasts[w.last]? with
    | some first, some last => some ⟨w, endpointScore p first last⟩
    | _, _ => .none
  found.mergeSort Ranked.le

def slack : α := Score.quotient 1 1000000000

/-- A similarity is at most one, so the body adds at most this. -/
def bodyBound : α := Score.larger p.bodyWeight (Score.ofNat 0)

def pruned (bound : α) (body : Window → α) : List (Ranked α) → Best α → Best α
  | [], best => best
  | r :: rs, best =>
      -- the windows that are left have no better endpoints, and rounding stays within the slack
      if r.endpoints + bound + slack < best.score then best
      else pruned bound body rs (best.offer r.window (body r.window + r.endpoints))

def prunedBest (query lines : List Text) : Best α :=
  let target := collapse query
  let weights := lines.map weight?
  pruned (bodyBound p)
    (fun w => p.bodyWeight * similarity ([' '].intercalate ((w.slice weights).filterMap id)) target)
    (ranked p query lines) .start

def Best.toMatch (b : Best α) (lines : List Text) : Match α :=
  ⟨Text.unlines ((b.window.map (·.slice lines)).getD []), b.score⟩

/-- The block of `content` that best corresponds to `query`. A blank query stands for an
insertion. -/
def bestMatch (query content : Text) : Match α :=
  match queryLines query with
  | [] => .insertion p.maxScore
  | q :: qs => (prunedBest p (q :: qs) content.pieces).toMatch content.pieces

def plainMatch (query content : Text) : Match α :=
  match queryLines query with
  | [] => .insertion p.maxScore
  | q :: qs => (bestOf p (q :: qs) content.pieces).toMatch content.pieces

end

end Emend
