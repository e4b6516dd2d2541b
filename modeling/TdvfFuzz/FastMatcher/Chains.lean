import TdvfFuzz.FastMatcher.Splice

/-!
# Chains through the exit token

A trace in which every exit edge is followed by a re-entry edge falls, in one
way only, into chains `(s, PT), (PT, PT), …, (PT, d)` and plain edges.
`TraceFileIter` yields one edge for each of them.
-/

namespace TdvfFuzz.FastMatcher

open TdvfFuzz.Foundation

/-- The edges from `src` that pass the exit token `passes` times. -/
def chainEdges (dst : Node) : Node → ℕ → List Edge
  | src, 0 => [(src, dst)]
  | src, passes + 1 => (src, ptToken) :: chainEdges dst ptToken passes

structure Chain where
  src : Node
  passes : ℕ
  dst : Node
  real : dst ≠ ptToken

namespace Chain

def edges (chain : Chain) : List Edge := chainEdges chain.dst chain.src chain.passes

def edge (chain : Chain) : Edge := (chain.src, chain.dst)

end Chain

theorem head?_chainEdges (src dst : Node) (passes : ℕ) :
    (chainEdges dst src passes).head?.map Prod.fst = some src := by
  cases passes <;> rfl

/-! ## Cutting a trace into chains -/

theorem exists_chains {edges : List Edge}
    (h : ExitsFollowed (fun e => e.1 = ptToken) edges) :
    ∃ chains : List Chain, edges = chains.flatMap Chain.edges := by
  induction edges with
  | nil => exact ⟨[], rfl⟩
  | cons e rest ih =>
      by_cases hexit : e.2 = ptToken
      · cases rest with
        | nil => exact absurd hexit h
        | cons following rest =>
            obtain ⟨chains, hchains⟩ := ih h.2
            cases chains with
            | nil => simp at hchains
            | cons chain chains =>
                -- the exit edge is put in front of the chain that follows it
                have hsrc : chain.src = ptToken := by
                  have hhead := head?_chainEdges chain.src chain.dst chain.passes
                  have hfirst := congrArg List.head? hchains
                  rw [List.flatMap_cons, List.head?_append, Chain.edges] at hfirst
                  cases hedges : chainEdges chain.dst chain.src chain.passes with
                  | nil => simp [hedges] at hhead
                  | cons first tail =>
                      rw [hedges] at hhead hfirst
                      obtain rfl : following = first := by simpa using hfirst
                      have : following.1 = chain.src := by simpa using hhead
                      exact this ▸ h.1 hexit
                use ⟨e.1, chain.passes + 1, chain.dst, chain.real⟩ :: chains
                rw [hchains, List.flatMap_cons, List.flatMap_cons, Chain.edges, Chain.edges,
                  chainEdges, hsrc, List.cons_append, ← hexit]
      · have hrest : ExitsFollowed (fun e => e.1 = ptToken) rest := by
          cases rest with
          | nil => trivial
          | cons following rest => exact h.2
        obtain ⟨chains, rfl⟩ := ih hrest
        exact ⟨⟨e.1, 0, e.2, hexit⟩ :: chains, rfl⟩

theorem chainEdges_append_inj {dst dst' : Node} (hdst : dst ≠ ptToken) (hdst' : dst' ≠ ptToken)
    {src src' : Node} {passes passes' : ℕ} {rest rest' : List Edge}
    (h : chainEdges dst src passes ++ rest = chainEdges dst' src' passes' ++ rest') :
    src = src' ∧ passes = passes' ∧ dst = dst' ∧ rest = rest' := by
  induction passes generalizing src src' passes' with
  | zero =>
      cases passes' with
      | zero => simpa [chainEdges, and_assoc] using h
      | succ passes' =>
          have hhead : dst = ptToken := by simp_all [chainEdges]
          exact absurd hhead hdst
  | succ passes ih =>
      cases passes' with
      | zero =>
          have hhead : dst' = ptToken := by simp_all [chainEdges]
          exact absurd hhead hdst'
      | succ passes' =>
          obtain ⟨hhead, htail⟩ := List.cons.inj h
          obtain ⟨-, rfl, rfl, rfl⟩ := ih htail
          exact ⟨congrArg Prod.fst hhead, rfl, rfl, rfl⟩

/-- A trace has at most one decomposition, so its chains are the maximal ones. -/
theorem chains_unique {chains chains' : List Chain}
    (h : chains.flatMap Chain.edges = chains'.flatMap Chain.edges) : chains = chains' := by
  have hne : ∀ chain : Chain, chain.edges ≠ [] := by
    intro chain hnil
    have := head?_chainEdges chain.src chain.dst chain.passes
    rw [Chain.edges] at hnil
    simp [hnil] at this
  induction chains generalizing chains' with
  | nil =>
      cases chains' with
      | nil => rfl
      | cons chain' chains' => exact absurd h.symm (by simp [hne chain'])
  | cons chain chains ih =>
      cases chains' with
      | nil => exact absurd h (by simp [hne chain])
      | cons chain' chains' =>
          obtain ⟨hsrc, hpasses, hdst, hrest⟩ :=
            chainEdges_append_inj chain.real chain'.real (by simpa [Chain.edges] using h)
          rw [ih hrest]
          obtain ⟨src, passes, dst, real⟩ := chain
          obtain ⟨src', passes', dst', real'⟩ := chain'
          simp_all

/-! ## One edge for each chain -/

theorem splice_chainEdges {dst : Node} (hdst : dst ≠ ptToken) (rest : List Edge) (src : Node)
    (passes : ℕ) :
    ∃ spliced, splice (chainEdges dst src passes ++ rest) =
      ⟨(src, dst), spliced⟩ :: splice rest := by
  induction passes generalizing src with
  | zero => exact ⟨false, splice_of_dst_ne rest hdst⟩
  | succ passes ih =>
      obtain ⟨spliced, hsplice⟩ := ih ptToken
      refine ⟨true, ?_⟩
      rw [chainEdges, List.cons_append, splice, if_pos rfl, hsplice]

theorem splice_chains (chains : List Chain) :
    (splice (chains.flatMap Chain.edges)).map Spliced.edge = chains.map Chain.edge := by
  induction chains with
  | nil => rfl
  | cons chain chains ih =>
      obtain ⟨spliced, hsplice⟩ := splice_chainEdges chain.real
        (chains.flatMap Chain.edges) chain.src chain.passes
      rw [List.flatMap_cons, Chain.edges, hsplice, List.map_cons, ih, List.map_cons]
      rfl

theorem iterator_splices_chains {texts : List Text} {edges : List Edge}
    (htexts : texts.map parseLine = edges.map .edge)
    (h : ExitsFollowed (fun e => e.1 = ptToken) edges) :
    ∃ chains : List Chain, edges = chains.flatMap Chain.edges ∧
      (∀ chains' : List Chain, edges = chains'.flatMap Chain.edges → chains' = chains) ∧
      traceEdges (texts.map some) = (chains.map Chain.edge, false) ∧
      ∀ e ∈ (traceEdges (texts.map some)).1, e.2 ≠ ptToken := by
  obtain ⟨chains, hchains⟩ := exists_chains h
  have hyielded : traceEdges (texts.map some) = (chains.map Chain.edge, false) := by
    rw [traceEdges_splice htexts h, hchains, splice_chains]
  refine ⟨chains, hchains, ?_, hyielded, ?_⟩
  · intro chains' hchains'
    exact chains_unique (hchains'.symm.trans hchains)
  · rw [hyielded]
    intro e he
    obtain ⟨chain, -, rfl⟩ := List.mem_map.mp he
    exact chain.real

/-- Three lines of one chain between two plain edges. -/
theorem iterator_splices_chains_three :
    traceEdges (["10,20", "20,ffffffffffffffff", "ffffffffffffffff,ffffffffffffffff",
        "ffffffffffffffff,30", "30,40"].map fun line => some line.toList) =
      ([(0x10, 0x20), (0x20, 0x30), (0x30, 0x40)], false) := by
  let texts : List Text := ["10,20", "20,ffffffffffffffff", "ffffffffffffffff,ffffffffffffffff",
    "ffffffffffffffff,30", "30,40"].map String.toList
  let chains : List Chain :=
    [⟨0x10, 0, 0x20, by decide⟩, ⟨0x20, 2, 0x30, by decide⟩, ⟨0x30, 0, 0x40, by decide⟩]
  have hread : texts.map parseLine = (chains.flatMap Chain.edges).map .edge := by decide +kernel
  obtain ⟨chains', hchains', hunique, hyielded, -⟩ :=
    iterator_splices_chains hread (by decide +kernel)
  rw [← hunique chains rfl] at hyielded
  exact hyielded

end TdvfFuzz.FastMatcher
