import MakeBelieve.Library.Count

namespace MakeBelieve.Library.Worklist

universe u v

variable {σ : Type u} {α : Type v}

/-- A loop over a stack of nodes, its back the list's head: a node already done with is dropped,
any other is marked and what follows it is pushed. Stops when out of fuel. -/
def loop (done : σ → α → Bool) (mark : σ → α → σ) (next : σ → α → List α) :
    Nat → σ → List α → σ
  | _, s, [] => s
  | 0, s, _ :: _ => s
  | n + 1, s, node :: stack =>
    if done s node then loop done mark next n s stack
    else loop done mark next n (mark s node) (next (mark s node) node ++ stack)

/-- What each mark keeps, the loop keeps: a mark is made at a node of the stack, of which `Q` holds
as it does of all that follows a node marked. -/
theorem loop_keeps_on {done : σ → α → Bool} {mark : σ → α → σ} {next : σ → α → List α}
    {P : σ → Prop} {Q : α → Prop}
    (hmark : ∀ s node, done s node = false → Q node → P s → P (mark s node))
    (hnext : ∀ s node, done s node = false → Q node → P s → ∀ a ∈ next (mark s node) node, Q a)
    {n : Nat} {s : σ} {stack : List α} (h : P s) (hstack : ∀ a ∈ stack, Q a) :
    P (loop done mark next n s stack) := by
  induction n generalizing s stack with
  | zero => cases stack <;> exact h
  | succ n ih =>
    cases stack with
    | nil => exact h
    | cons node stack =>
      obtain ⟨hnode, hstack⟩ := List.forall_mem_cons.mp hstack
      simp only [loop]
      split
      · exact ih h hstack
      · next hd =>
        have hd : done s node = false := by simpa using hd
        refine ih (hmark s node hd hnode h) fun a ha => ?_
        obtain ha | ha := List.mem_append.mp ha
        · exact hnext s node hd hnode h a ha
        · exact hstack a ha

theorem loop_keeps {done : σ → α → Bool} {mark : σ → α → σ} {next : σ → α → List α}
    {P : σ → Prop} (hmark : ∀ s node, done s node = false → P s → P (mark s node))
    {n : Nat} {s : σ} {stack : List α} (h : P s) : P (loop done mark next n s stack) :=
  @loop_keeps_on _ _ done mark next P (fun _ => True) (fun s node hd _ => hmark s node hd)
    (fun _ _ _ _ _ _ _ => trivial) n s stack h fun _ _ => trivial

/-- What is left to do: the stack, and what each node not done with yet would push. -/
def left (done : σ → α → Bool) (next : σ → α → List α) (nodes : List α) (s : σ)
    (stack : List α) : Nat :=
  stack.length + (nodes.map fun a => if done s a then 0 else (next s a).length).sum

/-- The loop, from this state and stack, runs until its stack is empty and ends in `t`. -/
inductive Ends (done : σ → α → Bool) (mark : σ → α → σ) (next : σ → α → List α) :
    σ → List α → σ → Prop
  | nil (s : σ) : Ends done mark next s [] s
  | skip {s t : σ} {node : α} {stack : List α} (hd : done s node = true)
      (h : Ends done mark next s stack t) : Ends done mark next s (node :: stack) t
  | mark {s t : σ} {node : α} {stack : List α} (hd : done s node = false)
      (h : Ends done mark next (mark s node) (next (mark s node) node ++ stack) t) :
      Ends done mark next s (node :: stack) t

/-- What a node pushes once marked is no longer owed by it. -/
theorem left_mark [DecidableEq α] {done : σ → α → Bool} {mark : σ → α → σ}
    {next : σ → α → List α} {nodes : List α} (hnd : nodes.Nodup)
    (hdone : ∀ s a b, done (mark s a) b = true ↔ b = a ∨ done s b = true)
    (hnext : ∀ s a b, next (mark s a) b = next s b) {s : σ} {node : α} {stack : List α}
    (hd : done s node = false) (hnode : node ∈ nodes) :
    left done next nodes (mark s node) (next (mark s node) node ++ stack) + 1 =
      left done next nodes s (node :: stack) := by
  have hsum := sum_map_update (fun k => k)
    (fun a => if done s a then 0 else (next s a).length) hnd hnode 0
  have hsame : (nodes.map fun a => if done (mark s node) a then 0
      else (next (mark s node) a).length) =
      nodes.map fun a => Function.update
        (fun a => if done s a then 0 else (next s a).length) node 0 a := by
    apply List.map_congr_left
    intro a _
    rw [Function.update_apply, hnext]
    by_cases ha : a = node
    · rw [if_pos ((hdone s node a).mpr (.inl ha)), if_pos ha]
    · rw [if_neg ha]
      refine if_congr ?_ rfl rfl
      rw [hdone]
      simp [ha]
  simp only [left, List.length_cons, List.length_append]
  rw [hsame, hnext]
  rw [if_neg (by simp [hd])] at hsum
  omega

/-- Where marking does nothing but mark, the loop ends, given fuel for every push there can be. -/
theorem loop_ends [DecidableEq α] (done : σ → α → Bool) (mark : σ → α → σ)
    (next : σ → α → List α) {nodes : List α} (hnd : nodes.Nodup)
    (hdone : ∀ s a b, done (mark s a) b = true ↔ b = a ∨ done s b = true)
    (hnext : ∀ s a b, next (mark s a) b = next s b) {n : Nat} {s : σ} {stack : List α}
    (hstack : ∀ a ∈ stack, done s a = true ∨ a ∈ nodes)
    (hnodes : ∀ a ∈ nodes, ∀ b ∈ next s a, done s b = true ∨ b ∈ nodes)
    (hn : left done next nodes s stack ≤ n) :
    Ends done mark next s stack (loop done mark next n s stack) := by
  induction n generalizing s stack with
  | zero =>
    cases stack with
    | nil => exact .nil s
    | cons node stack => simp [left] at hn
  | succ n ih =>
    cases stack with
    | nil => exact .nil s
    | cons node stack =>
      have hrest : ∀ a ∈ stack, done s a = true ∨ a ∈ nodes := fun a ha =>
        hstack a (List.mem_cons_of_mem _ ha)
      rw [loop]
      cases hd : done s node with
      | true =>
        have hless : left done next nodes s stack ≤ n := by
          simp only [left, List.length_cons] at hn ⊢
          omega
        exact .skip hd (ih hrest hnodes hless)
      | false =>
        have hnode : node ∈ nodes := (hstack node (by simp)).resolve_left (by simp [hd])
        have hgrow : ∀ a, done s a = true ∨ a ∈ nodes → done (mark s node) a = true ∨ a ∈ nodes :=
          fun a ha => ha.imp (fun ha => (hdone s node a).mpr (.inr ha)) id
        have hless := @left_mark _ _ _ done mark next nodes hnd hdone hnext s node stack hd hnode
        refine .mark hd (ih (fun a ha => ?_) (fun a ha b hb => ?_) (by omega))
        · obtain ha | ha := List.mem_append.mp ha
          · rw [hnext] at ha
            exact hgrow a (hnodes node hnode a ha)
          · exact hgrow a (hrest a ha)
        · rw [hnext] at hb
          exact hgrow b (hnodes a ha b hb)

/-- A loop that has ended has marked all on its stack and all that follows what it marked. -/
theorem Ends.closed {done : σ → α → Bool} {mark : σ → α → σ} {next : σ → α → List α}
    (hdone : ∀ s a b, done (mark s a) b = true ↔ b = a ∨ done s b = true)
    (hnext : ∀ s a b, next (mark s a) b = next s b) {s t : σ} {stack : List α}
    (h : Ends done mark next s stack t) :
    (∀ a ∈ stack, done t a = true) ∧ (∀ a, done s a = true → done t a = true) ∧
      ∀ a, done t a = true → done s a = true ∨ ∀ b ∈ next s a, done t b = true := by
  induction h with
  | nil s => exact ⟨by simp, fun a ha => ha, fun a ha => .inl ha⟩
  | skip hd _ ih =>
    obtain ⟨hall, hmono, hclosed⟩ := ih
    refine ⟨fun a ha => ?_, hmono, hclosed⟩
    obtain rfl | ha := List.mem_cons.mp ha
    · exact hmono a hd
    · exact hall a ha
  | @mark s t node stack hd _ ih =>
    obtain ⟨hall, hmono, hclosed⟩ := ih
    refine ⟨fun a ha => ?_, fun a ha => hmono a ((hdone s node a).mpr (.inr ha)), fun a ha => ?_⟩
    · obtain rfl | ha := List.mem_cons.mp ha
      · exact hmono a ((hdone s a a).mpr (.inl rfl))
      · exact hall a (List.mem_append_right _ ha)
    · obtain ha | ha := hclosed a ha
      · obtain rfl | ha := (hdone s node a).mp ha
        · refine .inr fun b hb => hall b (List.mem_append_left _ ?_)
          rwa [hnext]
        · exact .inl ha
      · refine .inr fun b hb => ha b ?_
        rwa [hnext]

/-- Where marking does nothing but mark and the fuel is enough, the loop marks all on the stack and
all that follows what it marks. -/
theorem loop_closed [DecidableEq α] (done : σ → α → Bool) (mark : σ → α → σ)
    (next : σ → α → List α) {nodes : List α} (hnd : nodes.Nodup)
    (hdone : ∀ s a b, done (mark s a) b = true ↔ b = a ∨ done s b = true)
    (hnext : ∀ s a b, next (mark s a) b = next s b) {n : Nat} {s : σ} {stack : List α}
    (hstack : ∀ a ∈ stack, done s a = true ∨ a ∈ nodes)
    (hnodes : ∀ a ∈ nodes, ∀ b ∈ next s a, done s b = true ∨ b ∈ nodes)
    (hn : left done next nodes s stack ≤ n) :
    (∀ a ∈ stack, done (loop done mark next n s stack) a = true) ∧
    (∀ a, done s a = true → done (loop done mark next n s stack) a = true) ∧
    ∀ a, done (loop done mark next n s stack) a = true → done s a = true ∨
      ∀ b ∈ next s a, done (loop done mark next n s stack) b = true :=
  (loop_ends done mark next hnd hdone hnext hstack hnodes hn).closed hdone hnext

end MakeBelieve.Library.Worklist
