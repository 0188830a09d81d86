import IronClaw.PromptFiles

/-!
# Appends to one document at the same time

An append reads the document, stores the longer text, reads it again, deletes
the document's chunks and inserts the new ones, one call of the database after
the other. Nothing keeps the calls of two appends apart. A chunk is a row with
an index, which the database keeps unique within the document. A document that
is not there yet is created empty by the first read.
-/

set_option autoImplicit false

namespace IronClaw.AppendRace
open IronClaw.Workspace IronClaw.PromptFiles Lib.Runs

inductive Call where
  | append (entry : String)
  | appendMemory (entry : String)
  | appendToLayer (entry : String)
  deriving DecidableEq

def Call.entry : Call → String
  | .append entry | .appendMemory entry | .appendToLayer entry => entry

def Call.sep : Call → String
  | .append _ => "\n"
  | .appendMemory _ | .appendToLayer _ => "\n\n"

def Call.extend (call : Call) (old : String) : String := joined call.sep old call.entry

inductive Pc where
  | start
  | got (old : String)
  | updated
  | reread (chunks : List String)
  | inserting (index : ℕ) (chunks : List String)
  | returned (ok : Bool)
  deriving DecidableEq

structure Shared where
  content : String
  chunks : List (ℕ × String)
  deriving DecidableEq

section

variable (given : Given) (path : String)

def Call.scanned : Call → String → Except WorkspaceError Unit
  | .append _, content => scan given path content
  | _, _ => .ok ()

def next (call : Call) : Pc → Shared → Pc × Shared
  | .start, s => (.got s.content, s)
  | .got old, s =>
    match call.scanned given path (call.extend old) with
    | .error _ => (.returned false, s)
    | .ok _ => (.updated, { s with content := call.extend old })
  | .updated, s => (.reread (chunkDocument s.content), s)
  | .reread chunks, s => (.inserting 0 chunks, { s with chunks := [] })
  | .inserting _ [], s => (.returned true, s)
  | .inserting index (chunk::chunks), s =>
    if s.chunks.any (fun row => row.1 = index) then (.returned false, s)
    else (.inserting (index+1) chunks, { s with chunks := s.chunks++[(index, chunk)] })
  | .returned ok, s => (.returned ok, s)

structure Race where
  shared : Shared
  pcs : ℕ → Pc

variable (calls : List Call)

def step (i : ℕ) (r : Race) : Race :=
  match calls[i]? with
  | none => r
  | some call =>
    let (pc, shared) := next given path call (r.pcs i) r.shared
    ⟨shared, Function.update r.pcs i pc⟩

def rows : ℕ → List String → List (ℕ × String)
  | _, [] => []
  | index, chunk::chunks => (index, chunk)::rows (index+1) chunks

def begin (content : String) : Race :=
  ⟨⟨content, rows 0 (chunkDocument content)⟩, fun _ => .start⟩

def extended (original : String) (order : List ℕ) : String :=
  order.foldl (fun content i => match calls[i]? with
    | some call => call.extend content
    | none => content) original

def Kept (original : String) (r : Race) : Prop :=
  (∀ i < calls.length, r.pcs i = .returned true) →
    (∃ order : List ℕ, order.Perm (List.range calls.length) ∧
      r.shared.content = extended calls original order) ∧
    r.shared.chunks = rows 0 (chunkDocument r.shared.content)

def Pc.holds : Pc → Bool
  | .got _ => true
  | _ => false

def Pc.reindexes : Pc → Bool
  | .reread _ | .inserting _ _ => true
  | _ => false

def Pc.stored : Pc → Bool
  | .updated | .reread _ | .inserting _ _ | .returned true => true
  | _ => false

def Apart (i : ℕ) (r : Race) : Prop :=
  match r.pcs i with
  | .got _ => ∀ j, j ≠ i → (r.pcs j).holds = false
  | .updated => ∀ j, j ≠ i → (r.pcs j).reindexes = false
  | _ => True

def Pc.Indexing (pc : Pc) (present : List (ℕ × String)) (chunks : List String) : Prop :=
  match pc with
  | .reread rest => rest = chunks
  | .inserting index rest =>
    ∃ done, done.length = index ∧ done++rest = chunks ∧ present = rows 0 done
  | _ => False

structure Inv (original : String) (r : Race) : Prop where
  held : ∀ i old, r.pcs i = .got old → old = r.shared.content
  stored : ∃ order : List ℕ, order.Nodup ∧ (∀ i, i ∈ order ↔ (r.pcs i).stored = true) ∧
    r.shared.content = extended calls original order
  inside : ∀ i, (r.pcs i).stored = true → i < calls.length
  single : ∀ i j, (r.pcs i).reindexes = true → (r.pcs j).reindexes = true → i = j
  indexing : ∀ i, (r.pcs i).reindexes = true →
    ∃ chunks, (r.pcs i).Indexing r.shared.chunks chunks
  covered : (∃ i, r.pcs i = .updated) ∨
    (∃ i, (r.pcs i).Indexing r.shared.chunks (chunkDocument r.shared.content)) ∨
    ((∀ i, (r.pcs i).reindexes = false) ∧
      r.shared.chunks = rows 0 (chunkDocument r.shared.content))

/-- A call that goes on alone, while the others neither hold a content nor
re-index, stays apart. -/
theorem alone_apart (i n : ℕ) (r : Race)
    (h : ∀ j, j ≠ i → (r.pcs j).holds = false ∧ (r.pcs j).reindexes = false) :
    Along (step given path calls) Apart (List.replicate n i) r ∧
      ∀ j, j ≠ i →
        (run (step given path calls) (List.replicate n i) r).pcs j = r.pcs j := by
  induction n generalizing r with
  | zero => exact ⟨trivial, fun _ _ => rfl⟩
  | succ n ih =>
    have hothers : ∀ j, j ≠ i → (step given path calls i r).pcs j = r.pcs j := by
      intro j hj
      unfold step
      split
      · rfl
      · exact Function.update_of_ne hj _ r.pcs
    obtain ⟨hrest, hsame⟩ := ih (step given path calls i r)
      (fun j hj => by rw [hothers j hj]; exact h j hj)
    refine ⟨⟨?_, hrest⟩, fun j hj => (hsame j hj).trans (hothers j hj)⟩
    unfold Apart
    split
    · exact fun j hj => (h j hj).1
    · exact fun j hj => (h j hj).2
    · trivial

variable (original : String)

theorem rows_append (index : ℕ) (xs ys : List String) :
    rows index (xs++ys) = rows index xs++rows (index+xs.length) ys := by
  induction xs generalizing index with
  | nil => rfl
  | cons x xs ih =>
    simp only [List.cons_append, rows, ih, List.length_cons]
    rw [show index+1+xs.length = index+(xs.length+1) by omega]

theorem rows_below (index : ℕ) (xs : List String) (row : ℕ × String) (h : row ∈ rows index xs) :
    row.1 < index+xs.length := by
  induction xs generalizing index with
  | nil => exact absurd h List.not_mem_nil
  | cons x xs ih =>
    obtain rfl | h := List.mem_cons.mp h
    · simp
    · have := ih (index+1) h
      simp only [List.length_cons]
      omega

theorem extended_snoc (order : List ℕ) (i : ℕ) (call : Call) (h : calls[i]? = some call) :
    extended calls original (order++[i]) = call.extend (extended calls original order) := by
  simp [extended, List.foldl_append, h]

theorem indexing_reindexes (pc : Pc) (present : List (ℕ × String)) (chunks : List String)
    (h : pc.Indexing present chunks) : pc.reindexes = true := by
  cases pc with
  | reread rest => rfl
  | inserting index rest => rfl
  | _ => exact absurd h (by simp [Pc.Indexing])

theorem reindexes_stored (pc : Pc) (h : pc.reindexes = true) : pc.stored = true := by
  cases pc with
  | reread rest => rfl
  | inserting index rest => rfl
  | _ => cases h

variable (r : Race) (i : ℕ)

/-- A move that touches no shared data and neither stores nor re-indexes. -/
theorem quiet_inv (pc : Pc) (h : Inv calls original r)
    (hheld : ∀ old, pc = .got old → old = r.shared.content) (hbefore : (r.pcs i).stored = false)
    (hafter : pc.stored = false) :
    Inv calls original ⟨r.shared, Function.update r.pcs i pc⟩ := by
  have hnot : ∀ pc' : Pc, pc'.stored = false → pc'.reindexes = false := by
    intro pc' hpc
    cases hre : pc'.reindexes with
    | false => rfl
    | true => simp [reindexes_stored pc' hre] at hpc
  have hstored : ∀ j, (Function.update r.pcs i pc j).stored = (r.pcs j).stored := by
    intro j
    by_cases hj : j = i
    · rw [hj, Function.update_self, hbefore, hafter]
    · rw [Function.update_of_ne hj]
  have hreindex : ∀ j, (Function.update r.pcs i pc j).reindexes = true →
      j ≠ i ∧ (r.pcs j).reindexes = true := by
    intro j hre
    by_cases hj : j = i
    · rw [hj, Function.update_self, hnot pc hafter] at hre
      cases hre
    · rw [Function.update_of_ne hj] at hre
      exact ⟨hj, hre⟩
  refine ⟨?_, ?_, ?_, ?_, ?_, ?_⟩
  · intro j old hj
    by_cases hji : j = i
    · rw [hji] at hj
      simp only [Function.update_self] at hj
      exact hheld old hj
    · simp only [Function.update_of_ne hji] at hj
      exact h.held j old hj
  · obtain ⟨order, hnodup, hmem, hcontent⟩ := h.stored
    exact ⟨order, hnodup, fun j => by rw [hmem j, hstored j], hcontent⟩
  · intro j hj
    exact h.inside j ((hstored j).symm.trans hj)
  · intro j k hj hk
    exact h.single j k (hreindex j hj).2 (hreindex k hk).2
  · intro j hj
    have hold := h.indexing j (hreindex j hj).2
    simpa only [Function.update_of_ne (hreindex j hj).1] using hold
  · obtain ⟨j, hj⟩ | ⟨j, hj⟩ | ⟨hnone, hchunks⟩ := h.covered
    · have hji : j ≠ i := fun heq => by rw [heq] at hj; simp [hj, Pc.stored] at hbefore
      exact Or.inl ⟨j, by simpa only [Function.update_of_ne hji] using hj⟩
    · have hji : j ≠ i := by
        intro heq
        have := indexing_reindexes _ _ _ hj
        rw [heq, hnot _ hbefore] at this
        cases this
      exact Or.inr (Or.inl ⟨j, by simpa only [Function.update_of_ne hji] using hj⟩)
    · refine Or.inr (Or.inr ⟨?_, hchunks⟩)
      intro j
      cases hre : (Function.update r.pcs i pc j).reindexes with
      | false => rfl
      | true => exact absurd (hreindex j hre).2 (by rw [hnone j]; exact Bool.false_ne_true)

theorem update_inv (call : Call) (old : String) (h : Inv calls original r)
    (hcall : calls[i]? = some call) (hpc : r.pcs i = .got old)
    (hapart : ∀ j, j ≠ i → (r.pcs j).holds = false) :
    Inv calls original
      ⟨{ r.shared with content := call.extend old }, Function.update r.pcs i .updated⟩ := by
  have hreindex : ∀ j, (Function.update r.pcs i .updated j).reindexes = true →
      j ≠ i ∧ (r.pcs j).reindexes = true := by
    intro j hre
    by_cases hj : j = i
    · rw [hj, Function.update_self] at hre
      cases hre
    · rw [Function.update_of_ne hj] at hre
      exact ⟨hj, hre⟩
  refine ⟨?_, ?_, ?_, ?_, ?_, ?_⟩
  · intro j old' hj
    by_cases hji : j = i
    · rw [hji] at hj
      simp only [Function.update_self] at hj
      cases hj
    · simp only [Function.update_of_ne hji] at hj
      have := hapart j hji
      rw [hj] at this
      cases this
  · obtain ⟨order, hnodup, hmem, hcontent⟩ := h.stored
    have hnew : i ∉ order := by
      rw [hmem i, hpc]
      exact Bool.false_ne_true
    refine ⟨order++[i], ?_, ?_, ?_⟩
    · exact List.nodup_append.mpr ⟨hnodup, List.nodup_singleton i,
        fun a ha b hb => by rw [List.mem_singleton.mp hb]; exact fun hab => hnew (hab ▸ ha)⟩
    · intro j
      rw [List.mem_append, List.mem_singleton]
      by_cases hji : j = i
      · rw [hji]
        simp [Pc.stored]
      · simp only [hji, or_false, hmem j, Function.update_of_ne hji]
    · rw [extended_snoc calls original order i call hcall, ← hcontent, ← h.held i old hpc]
  · intro j hj
    by_cases hji : j = i
    · rw [hji]
      exact (List.getElem?_eq_some_iff.mp hcall).1
    · simp only [Function.update_of_ne hji] at hj
      exact h.inside j hj
  · intro j k hj hk
    exact h.single j k (hreindex j hj).2 (hreindex k hk).2
  · intro j hj
    have hold := h.indexing j (hreindex j hj).2
    simpa only [Function.update_of_ne (hreindex j hj).1] using hold
  · exact Or.inl ⟨i, Function.update_self i _ r.pcs⟩

/-- The moves of the one call that re-indexes. -/
theorem reindex_inv (pc : Pc) (chunks : List (ℕ × String)) (h : Inv calls original r)
    (hbefore : (r.pcs i).stored = true) (hafter : pc.stored = true)
    (halone : ∀ j, j ≠ i → (r.pcs j).reindexes = false)
    (hindexing : pc.reindexes = true → ∃ all, pc.Indexing chunks all)
    (hcovered : (∃ j, j ≠ i ∧ r.pcs j = .updated) ∨
      pc.Indexing chunks (chunkDocument r.shared.content) ∨
      (pc.reindexes = false ∧ chunks = rows 0 (chunkDocument r.shared.content))) :
    Inv calls original
      ⟨{ r.shared with chunks := chunks }, Function.update r.pcs i pc⟩ := by
  have hstored : ∀ j, (Function.update r.pcs i pc j).stored = (r.pcs j).stored := by
    intro j
    by_cases hj : j = i
    · rw [hj, Function.update_self, hbefore, hafter]
    · rw [Function.update_of_ne hj]
  have hreindex : ∀ j, (Function.update r.pcs i pc j).reindexes = true →
      j = i ∧ pc.reindexes = true := by
    intro j hre
    by_cases hj : j = i
    · rw [hj, Function.update_self] at hre
      exact ⟨hj, hre⟩
    · rw [Function.update_of_ne hj, halone j hj] at hre
      cases hre
  refine ⟨?_, ?_, ?_, ?_, ?_, ?_⟩
  · intro j old hj
    by_cases hji : j = i
    · rw [hji] at hj
      simp only [Function.update_self] at hj
      rw [hj] at hafter
      cases hafter
    · simp only [Function.update_of_ne hji] at hj
      exact h.held j old hj
  · obtain ⟨order, hnodup, hmem, hcontent⟩ := h.stored
    exact ⟨order, hnodup, fun j => by rw [hmem j, hstored j], hcontent⟩
  · intro j hj
    exact h.inside j ((hstored j).symm.trans hj)
  · intro j k hj hk
    rw [(hreindex j hj).1, (hreindex k hk).1]
  · intro j hj
    obtain ⟨hji, hre⟩ := hreindex j hj
    simpa only [hji, Function.update_self] using hindexing hre
  · obtain ⟨j, hji, hj⟩ | hpc | ⟨hpc, hchunks⟩ := hcovered
    · exact Or.inl ⟨j, by simpa only [Function.update_of_ne hji] using hj⟩
    · exact Or.inr (Or.inl ⟨i, by simpa only [Function.update_self] using hpc⟩)
    · refine Or.inr (Or.inr ⟨?_, hchunks⟩)
      intro j
      cases hre : (Function.update r.pcs i pc j).reindexes with
      | false => rfl
      | true => exact absurd (hreindex j hre).2 (by rw [hpc]; exact Bool.false_ne_true)

/-- What is known while call `i` re-indexes: it is alone, and what it ends with
are the chunks of the content unless somebody else is about to re-index. -/
theorem while_reindexing (h : Inv calls original r) (hpc : (r.pcs i).reindexes = true) :
    (∀ j, j ≠ i → (r.pcs j).reindexes = false) ∧
      ((∃ j, j ≠ i ∧ r.pcs j = .updated) ∨
        (r.pcs i).Indexing r.shared.chunks (chunkDocument r.shared.content)) := by
  constructor
  · intro j hj
    cases hre : (r.pcs j).reindexes with
    | false => rfl
    | true => exact absurd (h.single j i hre hpc) hj
  · obtain ⟨j, hj⟩ | ⟨j, hj⟩ | ⟨hnone, _⟩ := h.covered
    · refine Or.inl ⟨j, ?_, hj⟩
      intro heq
      rw [← heq, hj] at hpc
      cases hpc
    · have hji := h.single j i (indexing_reindexes _ _ _ hj) hpc
      exact Or.inr (hji ▸ hj)
    · rw [hnone i] at hpc
      cases hpc

theorem reread_inv (h : Inv calls original r) (hpc : r.pcs i = .updated)
    (halone : ∀ j, j ≠ i → (r.pcs j).reindexes = false) :
    Inv calls original
      ⟨r.shared, Function.update r.pcs i (.reread (chunkDocument r.shared.content))⟩ :=
  reindex_inv calls original r i _ r.shared.chunks h (by rw [hpc]; rfl) rfl halone
    (fun _ => ⟨_, rfl⟩) (Or.inr (Or.inl rfl))

theorem delete_inv (chunks : List String) (h : Inv calls original r)
    (hpc : r.pcs i = .reread chunks) :
    Inv calls original
      ⟨{ r.shared with chunks := [] }, Function.update r.pcs i (.inserting 0 chunks)⟩ := by
  obtain ⟨halone, hcovered⟩ := while_reindexing calls original r i h (by rw [hpc]; rfl)
  apply reindex_inv calls original r i _ [] h (by rw [hpc]; rfl) rfl halone
  · intro _
    exact ⟨chunks, [], rfl, rfl, rfl⟩
  · obtain hother | hmine := hcovered
    · exact Or.inl hother
    · rw [hpc] at hmine
      exact Or.inr (Or.inl ⟨[], rfl, hmine, rfl⟩)

theorem finish_inv (i index : ℕ) (h : Inv calls original r) (hpc : r.pcs i = .inserting index []) :
    Inv calls original ⟨r.shared, Function.update r.pcs i (.returned true)⟩ := by
  obtain ⟨halone, hcovered⟩ := while_reindexing calls original r i h (by rw [hpc]; rfl)
  apply reindex_inv calls original r i _ r.shared.chunks h (by rw [hpc]; rfl) rfl halone
  · intro hre
    cases hre
  · obtain hother | hmine := hcovered
    · exact Or.inl hother
    · rw [hpc] at hmine
      obtain ⟨done, _, hall, hpresent⟩ := hmine
      rw [List.append_nil] at hall
      exact Or.inr (Or.inr ⟨rfl, by rw [← hall]; exact hpresent⟩)

/-- One more chunk; no row of that index is there. -/
theorem insert_indexing (present : List (ℕ × String)) (index : ℕ) (chunk : String)
    (rest all : List String) (h : (Pc.inserting index (chunk::rest)).Indexing present all) :
    present.any (fun row => row.1 = index) = false ∧
      (Pc.inserting (index+1) rest).Indexing (present++[(index, chunk)]) all := by
  obtain ⟨done, hlength, hall, hpresent⟩ := h
  constructor
  · rw [List.any_eq_false]
    intro row hrow
    have hbelow := rows_below 0 done row (hpresent ▸ hrow)
    simp only [decide_eq_true_eq]
    omega
  · refine ⟨done++[chunk], by simp [hlength], by simpa using hall, ?_⟩
    rw [rows_append, hpresent, Nat.zero_add, hlength]
    rfl

theorem insert_inv (i index : ℕ) (chunk : String) (rest : List String) (h : Inv calls original r)
    (hpc : r.pcs i = .inserting index (chunk::rest)) :
    r.shared.chunks.any (fun row => row.1 = index) = false ∧
      Inv calls original ⟨{ r.shared with chunks := r.shared.chunks++[(index, chunk)] },
        Function.update r.pcs i (.inserting (index+1) rest)⟩ := by
  have hre : (r.pcs i).reindexes = true := by rw [hpc]; rfl
  obtain ⟨halone, hcovered⟩ := while_reindexing calls original r i h hre
  obtain ⟨all, hall⟩ := h.indexing i hre
  rw [hpc] at hall hcovered
  obtain ⟨hfree, hnext⟩ := insert_indexing r.shared.chunks index chunk rest all hall
  refine ⟨hfree, ?_⟩
  apply reindex_inv calls original r i _ _ h (by rw [hpc]; rfl) rfl halone
  · intro _
    exact ⟨all, hnext⟩
  · obtain hother | hmine := hcovered
    · exact Or.inl hother
    · exact Or.inr (Or.inl (insert_indexing r.shared.chunks index chunk rest _ hmine).2)

theorem step_inv (r : Race) (h : Inv calls original r) (hapart : Apart i r) :
    Inv calls original (step given path calls i r) := by
  unfold step
  cases hcall : calls[i]? with
  | none => exact h
  | some call =>
    unfold Apart at hapart
    cases hpc : r.pcs i with
    | start =>
      exact quiet_inv calls original r i _ h (fun old heq => by injection heq with heq; exact heq.symm)
        (by rw [hpc]; rfl) rfl
    | got old =>
      rw [hpc] at hapart
      dsimp only [next]
      cases call.scanned given path (call.extend old) with
      | error e =>
        exact quiet_inv calls original r i _ h (fun old heq => by cases heq)
          (by rw [hpc]; rfl) rfl
      | ok u => exact update_inv calls original r i call old h hcall hpc hapart
    | updated =>
      rw [hpc] at hapart
      exact reread_inv calls original r i h hpc hapart
    | reread chunks => exact delete_inv calls original r i chunks h hpc
    | inserting index chunks =>
      cases chunks with
      | nil => exact finish_inv calls original r i index h hpc
      | cons chunk rest =>
        obtain ⟨hfree, hnext⟩ := insert_inv calls original r i index chunk rest h hpc
        simp only [next, hfree, Bool.false_eq_true, ↓reduceIte]
        exact hnext
    | returned ok =>
      have hsame : Function.update r.pcs i (.returned ok) = r.pcs := by
        rw [← hpc]
        exact Function.update_eq_self i r.pcs
      simp only [next, hsame]
      exact h

theorem begin_inv : Inv calls original (begin original) := by
  refine ⟨?_, ⟨[], List.nodup_nil, ?_, rfl⟩, ?_, ?_, ?_, Or.inr (Or.inr ⟨fun _ => rfl, rfl⟩)⟩
  · intro i old h
    cases h
  · intro i
    simp [begin, Pc.stored]
  · intro i h
    cases h
  · intro i j h
    cases h
  · intro i h
    cases h

theorem inv_kept (h : Inv calls original r) : Kept calls original r := by
  intro hall
  obtain ⟨order, hnodup, hmem, hcontent⟩ := h.stored
  have hrest : ∀ i, (r.pcs i).stored = true → i < calls.length := h.inside
  have hpcs : ∀ i, r.pcs i ≠ .updated ∧ (r.pcs i).reindexes = false := by
    intro i
    by_cases hi : i < calls.length
    · rw [hall i hi]
      exact ⟨Pc.noConfusion, rfl⟩
    · constructor
      · intro heq
        exact hi (hrest i (by rw [heq]; rfl))
      · cases hre : (r.pcs i).reindexes with
        | false => rfl
        | true => exact absurd (hrest i (reindexes_stored _ hre)) hi
  constructor
  · refine ⟨order, ?_, hcontent⟩
    rw [List.perm_ext_iff_of_nodup hnodup List.nodup_range]
    intro i
    rw [hmem i, List.mem_range]
    constructor
    · exact hrest i
    · intro hi
      rw [hall i hi]
      rfl
  · obtain ⟨i, hi⟩ | ⟨i, hi⟩ | ⟨_, hchunks⟩ := h.covered
    · exact absurd hi (hpcs i).1
    · have hre := indexing_reindexes _ _ _ hi
      rw [(hpcs i).2] at hre
      cases hre
    · exact hchunks

/-- No entry is lost and no chunk is stale, however many appends there are, as
long as they stay apart where they read and write back. -/
theorem appends_kept (labels : List ℕ)
    (h : Along (step given path calls) Apart labels (begin original)) :
    Kept calls original (run (step given path calls) labels (begin original)) := by
  apply inv_kept
  exact guarded_invariant (step given path calls) Apart (Inv calls original)
    (fun i r hr hc => step_inv given path calls original i r hr hc) labels _ h
    (begin_inv calls original)

end

/-! ## Two entries of a daily log -/

def logPath : String := "daily/2026-01-01.md"

def logCalls : List Call := [.append "a", .append "b"]

def logStep : ℕ → Race → Race := step plainGiven logPath logCalls

def lostLabels : List ℕ := [0, 1, 0, 0, 0, 0, 0, 1, 1, 1, 1, 1]

def staleLabels : List ℕ := [0, 0, 0, 1, 1, 1, 1, 1, 1, 0, 0, 0]

theorem log_orders (order : List ℕ) (h : order.Perm (List.range logCalls.length)) :
    order = [0, 1] ∨ order = [1, 0] := by
  have hrange : List.range logCalls.length = [0, 1] := by decide
  rw [hrange] at h
  obtain ⟨a, b, rfl⟩ := List.length_eq_two.mp h.length_eq
  have hnodup : a ≠ b := by simpa using h.nodup_iff.mpr (by decide)
  have ha : a = 0 ∨ a = 1 := by simpa using h.subset (List.mem_cons_self)
  have hb : b = 0 ∨ b = 1 := by simpa using h.subset (List.mem_cons_of_mem a List.mem_cons_self)
  obtain rfl | rfl := ha
  · exact Or.inl (by simpa using hb.resolve_left (Ne.symm hnodup))
  · exact Or.inr (by simpa using hb.resolve_right (Ne.symm hnodup))

theorem log_done (r : Race) (h₀ : r.pcs 0 = .returned true) (h₁ : r.pcs 1 = .returned true) :
    ∀ i < logCalls.length, r.pcs i = .returned true := by
  intro i hi
  obtain rfl | rfl : i = 0 ∨ i = 1 := by
    simp only [logCalls, List.length_cons, List.length_nil] at hi
    omega
  · exact h₀
  · exact h₁

/-- Both appends return without an error; once an entry is gone, once the
chunks are those of an older content. -/
theorem appends_race :
    ¬ Kept logCalls "" (run logStep lostLabels (begin "")) ∧
      ¬ Kept logCalls "" (run logStep staleLabels (begin "")) := by
  constructor
  · intro hkept
    obtain ⟨⟨order, hperm, hcontent⟩, _⟩ := hkept (log_done _ (by decide +kernel) (by decide +kernel))
    have hlost : (run logStep lostLabels (begin "")).shared.content = "b" := by decide +kernel
    rw [hlost] at hcontent
    obtain rfl | rfl := log_orders order hperm
    · exact absurd hcontent (by decide)
    · exact absurd hcontent (by decide)
  · intro hkept
    obtain ⟨_, hchunks⟩ := hkept (log_done _ (by decide +kernel) (by decide +kernel))
    exact absurd hchunks (by decide +kernel)

def serialLabels : List ℕ := List.replicate 6 0++List.replicate 6 1

/-- One append after the other. -/
theorem appends_serial :
    Kept logCalls "" (run logStep serialLabels (begin "")) ∧
      (run logStep serialLabels (begin "")).shared = ⟨"a\nb", [(0, "a\nb")]⟩ := by
  constructor
  · have hfirst := alone_apart plainGiven logPath logCalls 0 6 (begin "") (fun j _ => ⟨rfl, rfl⟩)
    have hdone : (run logStep (List.replicate 6 0) (begin "")).pcs 0 = .returned true := by
      decide +kernel
    have hsecond := alone_apart plainGiven logPath logCalls 1 6
      (run logStep (List.replicate 6 0) (begin "")) (by
        intro j _
        by_cases hj : j = 0
        · rw [hj, hdone]
          exact ⟨rfl, rfl⟩
        · have hstart : (run logStep (List.replicate 6 0) (begin "")).pcs j = .start :=
            hfirst.2 j hj
          rw [hstart]
          exact ⟨rfl, rfl⟩)
    exact appends_kept plainGiven logPath logCalls "" serialLabels
      (along_append logStep Apart _ _ (begin "") hfirst.1 hsecond.1)
  · decide +kernel

end IronClaw.AppendRace
