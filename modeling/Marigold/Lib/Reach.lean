import Mathlib.Data.List.Nodup
import Mathlib.Data.List.Perm.Subperm

/-!
# Breadth-first search

What can be reached from a node along the edges of a graph, not counting the node itself unless an edge leads
back to it. Edges to nodes that are not known are ignored. The search finds each node once, so as many rounds
as there are known nodes, and one for the start, are enough.
-/

namespace Marigold.Lib.Reach

variable {K : Type} [DecidableEq K]

/-- A node is put into the result and the queue unless it is unknown or was found before. -/
def discover (known : K → Bool) (state : List K × List K) (k : K) : List K × List K :=
  if known k ∧ k ∉ state.1 then (state.1 ++ [k], state.2 ++ [k]) else state

/-- The nodes found and the queue. -/
def search (next : K → List K) (known : K → Bool) : Nat → List K × List K → List K
  | 0, state => state.1
  | _ + 1, (found, []) => found
  | fuel + 1, (found, k :: queue) =>
    search next known fuel ((next k).foldl (discover known) (found, queue))

def Edge (next : K → List K) (known : K → Bool) (a b : K) : Prop := b ∈ next a ∧ known b

variable {next : K → List K} {known : K → Bool} {k a : K} {found queue nodes starts : List K} {next' : K → List K}
  {known' : K → Bool}

/-- One node's edges: the new nodes go to the end of both lists. -/
theorem foldl_discover (known : K → Bool) (ks found queue : List K) :
    ∃ new, ks.foldl (discover known) (found, queue) = (found ++ new, queue ++ new) ∧
      (found.Nodup → (found ++ new).Nodup) ∧ (∀ k ∈ new, k ∈ ks ∧ known k) ∧ ∀ k ∈ ks, known k → k ∈ found ++ new := by
  induction ks generalizing found queue with
  | nil => exact ⟨[], by simp, by simp, by simp, by simp⟩
  | cons k rest ih =>
    rw [List.foldl_cons, discover]
    split
    next fresh =>
      obtain ⟨new, result, once, inside, complete⟩ := ih (found ++ [k]) (queue ++ [k])
      refine ⟨k :: new, ?_, fun nodup => ?_, fun c member => ?_, fun c member isKnown => ?_⟩
      · rw [result, List.append_assoc, List.append_assoc]
        rfl
      · have first : (found ++ [k]).Nodup := by
          refine List.nodup_append.mpr ⟨nodup, List.nodup_singleton k, ?_⟩
          rintro a there b here rfl
          exact fresh.2 (List.mem_singleton.mp here ▸ there)
        simpa using once first
      · rcases List.mem_cons.mp member with rfl | later
        · exact ⟨.head _, fresh.1⟩
        · exact ⟨.tail _ (inside c later).1, (inside c later).2⟩
      · rcases List.mem_cons.mp member with rfl | later
        · simp
        · simpa using complete c later isKnown
    next old =>
      obtain ⟨new, result, once, inside, complete⟩ := ih found queue
      refine ⟨new, result, once, fun c member => ?_, fun c member isKnown => ?_⟩
      · exact ⟨.tail _ (inside c member).1, (inside c member).2⟩
      · rcases List.mem_cons.mp member with rfl | later
        · have before : c ∈ found := by
            by_contra out
            exact old ⟨isKnown, out⟩
          exact List.mem_append_left _ before
        · exact complete c later isKnown

/-- What a search from `start` keeps. Only nodes that are in the queue can have edges that were not followed. -/
structure Searching (next : K → List K) (known : K → Bool) (start : K) (found queue : List K) : Prop where
  once : found.Nodup
  inside : ∀ k ∈ found, known k
  queued : ∀ k ∈ queue, k = start ∨ k ∈ found
  sound : ∀ k ∈ found, Relation.TransGen (Edge next known) start k
  followed : ∀ k, k = start ∨ k ∈ found → k ∉ queue → ∀ c ∈ next k, known c → c ∈ found

theorem Searching.start (start : K) : Searching next known start [] [start] := by
  refine ⟨List.nodup_nil, by simp, by simp, by simp, fun k this out => ?_⟩
  rcases this with rfl | member
  · exact absurd (List.mem_singleton.mpr rfl) out
  · cases member

theorem Searching.step {start : K} (searching : Searching next known start found (k :: queue)) :
    ∃ new, (next k).foldl (discover known) (found, queue) = (found ++ new, queue ++ new) ∧
      Searching next known start (found ++ new) (queue ++ new) := by
  obtain ⟨new, result, once, inside, complete⟩ := foldl_discover known (next k) found queue
  have here : k = start ∨ k ∈ found := searching.queued k List.mem_cons_self
  refine ⟨new, result, once searching.once, fun c member => ?_, fun c member => ?_, fun c member => ?_,
    fun c this out e edge isKnown => ?_⟩
  · rcases List.mem_append.mp member with old | fresh
    · exact searching.inside c old
    · exact (inside c fresh).2
  · rcases List.mem_append.mp member with old | fresh
    · exact (searching.queued c (List.mem_cons_of_mem _ old)).imp_right (List.mem_append_left _)
    · exact .inr (List.mem_append_right _ fresh)
  · rcases List.mem_append.mp member with old | fresh
    · exact searching.sound c old
    · rcases here with rfl | before
      · exact .single (inside c fresh)
      · exact (searching.sound k before).tail (inside c fresh)
  · -- the node that was taken from the queue has its edges followed now
    by_cases same : c = k
    · exact complete e (same ▸ edge) isKnown
    · have old : c = start ∨ c ∈ found := by
        rcases this with isStart | member
        · exact .inl isStart
        · rcases List.mem_append.mp member with before | fresh
          · exact .inr before
          · exact absurd (List.mem_append_right _ fresh) out
      have left : c ∉ k :: queue := by
        rw [List.mem_cons, not_or]
        exact ⟨same, fun member => out (List.mem_append_left _ member)⟩
      exact List.mem_append_left _ (searching.followed c old left e edge isKnown)

section

variable {start : K} (finite : ∀ k, known k → k ∈ nodes)

include finite

theorem Searching.search {fuel : Nat} (searching : Searching next known start found queue)
    (enough : queue.length + nodes.length ≤ fuel + found.length) :
    Searching next known start (search next known fuel (found, queue)) [] := by
  induction fuel generalizing found queue with
  | zero =>
    have few : found.length ≤ nodes.length :=
      (List.subperm_of_subset searching.once fun k member => finite k (searching.inside k member)).length_le
    have empty : queue = [] := List.eq_nil_of_length_eq_zero (by omega)
    exact empty ▸ searching
  | succ fuel ih =>
    cases queue with
    | nil => exact searching
    | cons k queue =>
      obtain ⟨new, result, next⟩ := searching.step
      rw [Reach.search, result]
      refine ih next ?_
      rw [List.length_append, List.length_append]
      rw [List.length_cons] at enough
      omega

theorem searching_search : Searching next known start (search next known (nodes.length + 1) ([], [start])) [] := by
  refine (Searching.start start).search finite ?_
  rw [List.length_singleton, Nat.add_comm]
  exact Nat.le_refl _

theorem mem_search :
    k ∈ search next known (nodes.length + 1) ([], [start]) ↔ Relation.TransGen (Edge next known) start k := by
  have done : Searching next known start (search next known (nodes.length + 1) ([], [start])) [] :=
    searching_search finite
  constructor
  · exact done.sound k
  · intro reached
    induction reached with
    | single edge => exact done.followed start (.inl rfl) List.not_mem_nil _ edge.1 edge.2
    | tail _ edge before => exact done.followed _ (.inr before) List.not_mem_nil _ edge.1 edge.2

/-! ## Removing what is reached -/

end

/-- Reached from a known start, or one itself. -/
def Hit (next : K → List K) (known : K → Bool) (starts : List K) (k : K) : Prop :=
  ∃ a ∈ starts, known a ∧ Relation.ReflTransGen (Edge next known) a k

omit [DecidableEq K] in
theorem Hit.step {b : K} (hit : Hit next known starts a) (edge : b ∈ next a) (isKnown : known b) :
    Hit next known starts b := by
  obtain ⟨start, member, there, path⟩ := hit
  exact ⟨start, member, there, path.tail ⟨edge, isKnown⟩⟩

omit [DecidableEq K] in
/-- A path to a node that is left is a path through nodes that are left. -/
theorem path_of_left (left : ∀ k, known' k ↔ known k ∧ ¬Hit next known starts k)
    (same : ∀ a b, known' a → known' b → (b ∈ next' a ↔ b ∈ next a)) (isLeft : known' k) (here : known' a)
    (path : Relation.ReflTransGen (Edge next known) a k) : Relation.ReflTransGen (Edge next' known') a k := by
  induction path using Relation.ReflTransGen.head_induction_on with
  | refl => exact .refl
  | @head a b edge later ih =>
    have stays : known' b := by
      rw [left]
      refine ⟨edge.2, fun hit => ?_⟩
      -- what is reached from a hit node is hit
      obtain ⟨start, member, there, path⟩ := hit
      exact ((left k).mp isLeft).2 ⟨start, member, there, path.trans later⟩
    exact .head ⟨(same a b here stays).mpr edge.1, stays⟩ (ih stays)

omit [DecidableEq K] in
/-- Removing what the first start reaches, and then what the others reach, removes what any of them reaches. -/
theorem hit_cons_iff {rest : List K} (left : ∀ k, known' k ↔ known k ∧ ¬Hit next known [a] k)
    (same : ∀ a b, known' a → known' b → (b ∈ next' a ↔ b ∈ next a)) (isLeft : known' k) :
    Hit next known (a :: rest) k ↔ Hit next' known' rest k := by
  constructor
  · rintro ⟨start, member, there, path⟩
    have notFirst : ¬Hit next known [a] k := ((left k).mp isLeft).2
    rcases List.mem_cons.mp member with rfl | member
    · exact absurd ⟨start, List.mem_singleton_self start, there, path⟩ notFirst
    · have stays : known' start := by
        refine (left start).mpr ⟨there, fun hit => notFirst ?_⟩
        obtain ⟨first, only, alive, before⟩ := hit
        exact ⟨first, only, alive, before.trans path⟩
      exact ⟨start, member, stays, path_of_left left same isLeft stays path⟩
  · rintro ⟨start, member, there, path⟩
    refine ⟨start, .tail _ member, ((left start).mp there).1, ?_⟩
    -- every node of the path is left, so its edges are edges of the whole graph
    have lifted : known' k ∧ Relation.ReflTransGen (Edge next known) start k := by
      clear isLeft
      induction path with
      | refl => exact ⟨there, .refl⟩
      | @tail b c _ edge ih =>
        exact ⟨edge.2, ih.2.tail ⟨(same b c ih.1 edge.2).mp edge.1, ((left c).mp edge.2).1⟩⟩
    exact lifted.2

end Marigold.Lib.Reach
