import Mathlib.Data.List.Basic
import Mathlib.Data.List.Nodup
import Mathlib.Data.List.Perm.Subperm
import Mathlib.Logic.Relation
import MakeBelieve.Library.Acyclic

namespace MakeBelieve.Library.Search

open Relation

variable {α : Type*}

/-- What a depth-first search has come to, newest first, each with the node it came from. -/
abbrev Parents (α : Type*) := List (α × Option α)

def keys (parent : Parents α) : List α := parent.map Prod.fst

def parentOf [DecidableEq α] : Parents α → α → Option α
  | [], _ => none
  | (a, q) :: rest, b => if a = b then q else parentOf rest b

/-- Takes in `next`, a neighbour of `node`, unless the search has come to it already. -/
def visit [DecidableEq α] (node : α) (at' : Parents α × List α) (next : α) : Parents α × List α :=
  if next ∈ keys at'.1 then at' else ((next, some node) :: at'.1, next :: at'.2)

/-- Follows the parents from a node back to where the search began. -/
def trace [DecidableEq α] (parent : Parents α) : Nat → Option α → List α
  | 0, _ => []
  | _ + 1, none => []
  | n + 1, some a => a :: trace parent n (parentOf parent a)

/-- The depth-first search itself: `none` if out of fuel, the empty path if `goal` is not reached,
and otherwise a path from `goal` back to the start. The stack's back is the list's head. -/
def search [DecidableEq α] (succ : α → List α) (goal : α) : Nat → Parents α → List α → Option (List α)
  | _, _, [] => some []
  | 0, _, _ :: _ => none
  | n + 1, parent, node :: stack =>
    if node = goal then some (trace parent parent.length (some node))
    else
      let visited := (succ node).foldl (visit node) (parent, stack)
      search succ goal n visited.1 visited.2

/-- A path as `search` returns it: from `goal` back to `start`, each node a neighbour of the next. -/
structure IsPath (succ : α → List α) (start goal : α) (path : List α) : Prop where
  head : path.head? = some goal
  last : path.getLast? = some start
  chain : path.IsChain (fun x y => x ∈ succ y)

/-- The parents form a tree rooted at `start`, each entry's parent older than the entry. -/
def Tree (succ : α → List α) (start : α) : Parents α → Prop
  | [] => False
  | [(a, q)] => a = start ∧ q = none
  | (a, q) :: rest =>
    (∃ p, q = some p ∧ p ∈ keys rest ∧ a ∈ succ p) ∧ a ∉ keys rest ∧ Tree succ start rest

/-- What holds between two rounds of the search: the tree, a stack of nodes still to expand, and
of every other node come to, that it is not the goal and that its neighbours are all taken in. -/
structure Inv (succ : α → List α) (start goal : α) (parent : Parents α) (stack : List α) : Prop where
  tree : Tree succ start parent
  stack_sub : stack ⊆ keys parent
  stack_nodup : stack.Nodup
  expanded : ∀ a ∈ keys parent, a ∉ stack → a ≠ goal ∧ ∀ b ∈ succ a, b ∈ keys parent

variable {succ : α → List α} {start goal : α}

theorem Tree.cons {parent : Parents α} {a p : α} (h : Tree succ start parent)
    (hp : p ∈ keys parent) (ha : a ∈ succ p) (hn : a ∉ keys parent) :
    Tree succ start ((a, some p) :: parent) := by
  cases parent with
  | nil => simp [keys] at hp
  | cons e rest => exact ⟨⟨p, rfl, hp, ha⟩, hn, h⟩

theorem Tree.keys_nodup {parent : Parents α} (h : Tree succ start parent) :
    (keys parent).Nodup := by
  induction parent with
  | nil => simp [keys]
  | cons e rest ih =>
    cases rest with
    | nil => simp [keys]
    | cons f rest =>
      obtain ⟨_, hn, ht⟩ := h
      exact List.nodup_cons.mpr ⟨hn, ih ht⟩

theorem Tree.start_mem {parent : Parents α} (h : Tree succ start parent) :
    start ∈ keys parent := by
  induction parent with
  | nil => exact h.elim
  | cons e rest ih =>
    cases rest with
    | nil => simp [keys, h.1]
    | cons f rest => exact List.mem_cons_of_mem _ (ih h.2.2)

theorem parentOf_append [DecidableEq α] {pre : Parents α} {sfx : Parents α} {a : α} (ha : a ∉ keys pre) :
    parentOf (pre ++ sfx) a = parentOf sfx a := by
  induction pre with
  | nil => rfl
  | cons e pre ih =>
    simp only [keys, List.map_cons, List.mem_cons, not_or] at ha
    simp [parentOf, Ne.symm ha.1, ih ha.2]

/-- Following the parents from any node come to leads back to the start, along the edges. -/
theorem trace_isPath [DecidableEq α] {parent sfx : Parents α} (pre : Parents α) (heq : parent = pre ++ sfx)
    (hnd : (keys parent).Nodup) (h : Tree succ start sfx) {a : α} (ha : a ∈ keys sfx)
    {n : Nat} (hn : sfx.length ≤ n) : IsPath succ start a (trace parent n (some a)) := by
  induction sfx generalizing pre a n with
  | nil => exact h.elim
  | cons e rest ih =>
    obtain ⟨b, q⟩ := e
    obtain ⟨n, rfl⟩ : ∃ k, n = k + 1 := ⟨n - 1, by simp at hn; omega⟩
    have hrest : rest.length ≤ n := by simpa using hn
    by_cases hab : a = b
    · subst hab
      have hpre : a ∉ keys pre := by
        intro hmem
        rw [heq, keys, List.map_append, List.map_cons] at hnd
        exact (List.disjoint_of_nodup_append hnd) hmem (by simp)
      have hq : parentOf parent a = q := by rw [heq, parentOf_append hpre]; simp [parentOf]
      cases rest with
      | nil =>
        obtain ⟨rfl, rfl⟩ := h
        have hstop : trace parent n none = [] := by cases n <;> rfl
        simp only [trace, hq, hstop]
        exact ⟨rfl, rfl, .singleton _⟩
      | cons f rest =>
        obtain ⟨⟨p, rfl, hp, hsucc⟩, _, ht⟩ := h
        have hpath := ih (pre ++ [(a, some p)]) (by simp [heq]) ht hp hrest
        simp only [trace, hq]
        obtain ⟨x, xs, hx⟩ : ∃ x xs, trace parent n (some p) = x :: xs := by
          cases htr : trace parent n (some p) with
          | nil => simp [htr] at hpath; exact absurd hpath.head (by simp)
          | cons x xs => exact ⟨x, xs, rfl⟩
        rw [hx] at hpath ⊢
        have hxp : x = p := by simpa using hpath.head
        subst hxp
        refine ⟨rfl, ?_, ?_⟩
        · rw [List.getLast?_cons_cons]; exact hpath.last
        · exact List.isChain_cons_cons.mpr ⟨hsucc, hpath.chain⟩
    · have hmem : a ∈ keys rest := by
        simp only [keys, List.map_cons, List.mem_cons] at ha
        rcases ha with h' | h'
        · exact absurd h' hab
        · exact h'
      cases rest with
      | nil => simp [keys] at hmem
      | cons f rest =>
        exact ih (pre ++ [(b, q)]) (by simp [heq]) h.2.2 hmem (by omega)

theorem mem_keys_append {xs ys : Parents α} {a : α} :
    a ∈ keys (xs ++ ys) ↔ a ∈ keys xs ∨ a ∈ keys ys := by
  simp only [keys, List.map_append, List.mem_append]

theorem keys_entries (node : α) (added : List α) :
    keys (added.map (fun a => (a, some node))) = added := by
  simp [keys, Function.comp_def]

theorem Tree.entries {parent : Parents α} {node : α} {added : List α}
    (h : Tree succ start parent) (hnode : node ∈ keys parent) (hnd : added.Nodup)
    (hnew : ∀ a ∈ added, a ∈ succ node ∧ a ∉ keys parent) :
    Tree succ start (added.map (fun a => (a, some node)) ++ parent) := by
  induction added with
  | nil => exact h
  | cons a added ih =>
    obtain ⟨hna, hnd⟩ := List.nodup_cons.mp hnd
    have htail := ih hnd (fun b hb => hnew b (List.mem_cons_of_mem _ hb))
    obtain ⟨hsucc, hfresh⟩ := hnew a (by simp)
    refine htail.cons ?_ hsucc ?_
    · exact mem_keys_append.mpr (.inr hnode)
    · rw [mem_keys_append, keys_entries]
      exact fun hc => hc.elim hna hfresh

theorem inv_init : Inv succ start goal [(start, none)] [start] where
  tree := ⟨rfl, rfl⟩
  stack_sub := by simp [keys]
  stack_nodup := List.nodup_singleton _
  expanded := by simp [keys]

section

variable [DecidableEq α]

/-- What one round takes in: the new nodes, each once, all of them neighbours of `node`, which
leave no neighbour out. -/
theorem foldl_visit (node : α) (nexts : List α) (parent : Parents α) (stack : List α) :
    ∃ added : List α,
      nexts.foldl (visit node) (parent, stack) =
        (added.map (fun a => (a, some node)) ++ parent, added ++ stack) ∧
      added.Nodup ∧ (∀ a ∈ added, a ∈ nexts ∧ a ∉ keys parent) ∧
      ∀ a ∈ nexts, a ∈ added ∨ a ∈ keys parent := by
  induction nexts generalizing parent stack with
  | nil => exact ⟨[], by simp⟩
  | cons next nexts ih =>
    by_cases hmem : next ∈ keys parent
    · obtain ⟨added, heq, hnd, hnew, hall⟩ := ih parent stack
      refine ⟨added, ?_, hnd, fun a ha => ?_, fun a ha => ?_⟩
      · simpa [visit, hmem] using heq
      · exact ⟨List.mem_cons_of_mem _ (hnew a ha).1, (hnew a ha).2⟩
      · rcases List.mem_cons.mp ha with rfl | ha
        · exact .inr hmem
        · exact hall a ha
    · obtain ⟨added, heq, hnd, hnew, hall⟩ := ih ((next, some node) :: parent) (next :: stack)
      have hkeys : keys ((next, some node) :: parent) = next :: keys parent := rfl
      rw [hkeys] at hnew hall
      refine ⟨added ++ [next], ?_, ?_, fun a ha => ?_, fun a ha => ?_⟩
      · simpa [visit, hmem] using heq
      · refine List.nodup_append.mpr ⟨hnd, List.nodup_singleton _, ?_⟩
        intro a ha b hb hab
        rw [List.mem_singleton] at hb
        subst hb hab
        exact (hnew a ha).2 (by simp)
      · rcases List.mem_append.mp ha with ha | ha
        · obtain ⟨h1, h2⟩ := hnew a ha
          simp only [List.mem_cons, not_or] at h2
          exact ⟨List.mem_cons_of_mem _ h1, h2.2⟩
        · rw [List.mem_singleton] at ha
          subst ha
          exact ⟨by simp, hmem⟩
      · rcases List.mem_cons.mp ha with rfl | ha
        · exact .inl (by simp)
        · rcases hall a ha with h | h
          · exact .inl (by simp [h])
          · rcases List.mem_cons.mp h with rfl | h
            · exact .inl (by simp)
            · exact .inr h

/-- One round, at a node which is not the goal, keeps the invariant and expands that node. -/
theorem Inv.round {parent : Parents α} {node : α} {stack : List α}
    (h : Inv succ start goal parent (node :: stack)) (hnode : node ≠ goal) :
    ∃ added : List α,
      (succ node).foldl (visit node) (parent, stack) =
        (added.map (fun a => (a, some node)) ++ parent, added ++ stack) ∧
      Inv succ start goal (added.map (fun a => (a, some node)) ++ parent) (added ++ stack) := by
  obtain ⟨added, heq, hnd, hnew, hall⟩ := foldl_visit node (succ node) parent stack
  have hmem : node ∈ keys parent := h.stack_sub (by simp)
  obtain ⟨hns, hsnd⟩ := List.nodup_cons.mp h.stack_nodup
  refine ⟨added, heq, h.tree.entries hmem hnd hnew, ?_, ?_, ?_⟩
  · intro a ha
    rw [mem_keys_append, keys_entries]
    rcases List.mem_append.mp ha with ha | ha
    · exact .inl ha
    · exact .inr (h.stack_sub (List.mem_cons_of_mem _ ha))
  · refine List.nodup_append.mpr ⟨hnd, hsnd, ?_⟩
    intro a ha b hb hab
    subst hab
    exact (hnew a ha).2 (h.stack_sub (List.mem_cons_of_mem _ hb))
  · intro a ha hstack
    rw [List.mem_append, not_or] at hstack
    rw [mem_keys_append, keys_entries] at ha
    have hkey : a ∈ keys parent := ha.resolve_left hstack.1
    by_cases han : a = node
    · subst han
      refine ⟨hnode, fun b hb => ?_⟩
      rw [mem_keys_append, keys_entries]
      exact hall b hb
    · obtain ⟨hgoal, hclosed⟩ := h.expanded a hkey (by simp [han, hstack.2])
      exact ⟨hgoal, fun b hb => mem_keys_append.mpr (.inr (hclosed b hb))⟩

/-- Whatever the fuel, a search that ends without a path has closed a set of nodes without the
goal; and one that ends with a path has a path of edges. -/
theorem search_sound {n : Nat} {parent : Parents α} {stack path : List α}
    (h : Inv succ start goal parent stack) (hs : search succ goal n parent stack = some path) :
    (path = [] ∧ ¬ReflTransGen (fun a b => b ∈ succ a) start goal) ∨
      IsPath succ start goal path := by
  induction n generalizing parent stack with
  | zero =>
    cases stack with
    | cons node stack => simp [search] at hs
    | nil =>
      simp only [search, Option.some.injEq] at hs
      refine .inl ⟨hs.symm, fun hr => ?_⟩
      have hclosed : ∀ a b, a ∈ keys parent → b ∈ succ a → b ∈ keys parent :=
        fun a b ha hb => (h.expanded a ha (by simp)).2 b hb
      exact (h.expanded goal (closed_of_reflTransGen hclosed hr h.tree.start_mem) (by simp)).1 rfl
  | succ n ih =>
    cases stack with
    | nil =>
      simp only [search, Option.some.injEq] at hs
      refine .inl ⟨hs.symm, fun hr => ?_⟩
      have hclosed : ∀ a b, a ∈ keys parent → b ∈ succ a → b ∈ keys parent :=
        fun a b ha hb => (h.expanded a ha (by simp)).2 b hb
      exact (h.expanded goal (closed_of_reflTransGen hclosed hr h.tree.start_mem) (by simp)).1 rfl
    | cons node stack =>
      simp only [search] at hs
      by_cases hgoal : node = goal
      · rw [if_pos hgoal, Option.some.injEq] at hs
        subst hs hgoal
        exact .inr (trace_isPath [] rfl h.tree.keys_nodup h.tree
          (h.stack_sub (by simp)) (Nat.le_refl _))
      · rw [if_neg hgoal] at hs
        obtain ⟨added, heq, hinv⟩ := h.round hgoal
        rw [heq] at hs
        exact ih hinv hs

/-- As much fuel as there are nodes is enough: each round takes another node off the stack for
good. -/
theorem search_terminates {n : Nat} {parent : Parents α} {stack nodes : List α}
    (h : Inv succ start goal parent stack) (hstart : start ∈ nodes)
    (hclosed : ∀ a ∈ nodes, ∀ b ∈ succ a, b ∈ nodes)
    (hn : nodes.length + stack.length ≤ n + parent.length) :
    ∃ path, search succ goal n parent stack = some path := by
  have hsub : ∀ {ps : Parents α}, Tree succ start ps → keys ps ⊆ nodes := by
    intro ps
    induction ps with
    | nil => exact fun ht => ht.elim
    | cons e rest ih =>
      intro ht
      cases rest with
      | nil => simpa [keys, ht.1] using hstart
      | cons f rest =>
        obtain ⟨⟨p, _, hp, hsucc⟩, _, ht⟩ := ht
        have hrest := ih ht
        intro a ha
        rcases List.mem_cons.mp ha with rfl | ha
        · exact hclosed p (hrest hp) _ hsucc
        · exact hrest ha
  induction n generalizing parent stack with
  | zero =>
    have hlen : parent.length ≤ nodes.length := by
      have := (h.tree.keys_nodup.subperm (hsub h.tree)).length_le
      simpa [keys] using this
    have hempty : stack = [] := List.length_eq_zero_iff.mp (by omega)
    exact ⟨[], by simp [hempty, search]⟩
  | succ n ih =>
    cases stack with
    | nil => exact ⟨[], by simp [search]⟩
    | cons node stack =>
      simp only [search]
      split
      · exact ⟨_, rfl⟩
      · rename_i hgoal
        obtain ⟨added, heq, hinv⟩ := h.round hgoal
        rw [heq]
        refine ih hinv ?_
        simp only [List.length_append, List.length_map, List.length_cons] at hn ⊢
        omega

/-- The search decides reachability: it comes back without a path exactly when there is none. -/
theorem search_spec {n : Nat} {nodes : List α} (hstart : start ∈ nodes)
    (hclosed : ∀ a ∈ nodes, ∀ b ∈ succ a, b ∈ nodes) (hn : nodes.length ≤ n) :
    ∃ path, search succ goal n [(start, none)] [start] = some path ∧
      (path = [] ∧ ¬ReflTransGen (fun a b => b ∈ succ a) start goal ∨
        IsPath succ start goal path) := by
  have hend : ∃ path, search succ goal n [(start, none)] [start] = some path :=
    search_terminates inv_init hstart hclosed (by simpa using hn)
  obtain ⟨path, hpath⟩ := hend
  exact ⟨path, hpath, search_sound inv_init hpath⟩

end

/-- A path as the search returns it witnesses reachability. -/
theorem IsPath.reflTransGen {path : List α} (h : IsPath succ start goal path) :
    ReflTransGen (fun a b => b ∈ succ a) start goal := by
  obtain ⟨hhead, hlast, hchain⟩ := h
  induction path generalizing goal with
  | nil => simp at hhead
  | cons x xs ih =>
    have hx : x = goal := by simpa using hhead
    subst hx
    cases xs with
    | nil =>
      have : x = start := by simpa using hlast
      exact this ▸ .refl
    | cons y ys =>
      obtain ⟨hxy, hrest⟩ := List.isChain_cons_cons.mp hchain
      exact (ih rfl (by simpa using hlast) hrest).tail hxy

end MakeBelieve.Library.Search
