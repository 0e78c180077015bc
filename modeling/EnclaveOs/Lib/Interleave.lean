import EnclaveOs.Lib.Prog

/-!
# Two threads over one memory

A thread relies on what the other one guarantees, so a call is checked alone.
-/

namespace EnclaveOs.Lib

structure World (M L : Type) where
  mem : M
  log : L

abbrev Thread (Op : Type) (Ans : Op → Type) (L : Type) := Prog Op Ans (L → L)

namespace Thread

variable {Op : Type} {Ans : Op → Type} {M L α : Type}

def settle : Thread Op Ans L → World M L → World M L
  | .ret f, w => { w with log := f w.log }
  | _, w => w

variable (respond : (o : Op) → M → Ans o × M)

def advance : Thread Op Ans L → World M L → Thread Op Ans L × World M L
  | .step o k, w =>
    let r := respond o w.mem
    (k r.1, settle (k r.1) ⟨r.2, w.log⟩)
  | p, w => (p, w)

/-- What a thread promises of each step, and what it is promised. -/
structure Contract (M L : Type) where
  inv : World M L → Prop
  rely : World M L → World M L → Prop
  guar : World M L → World M L → Prop
  rely_trans : ∀ {u v w}, rely u v → rely v w → rely u w
  guar_refl : ∀ w, guar w w
  guar_trans : ∀ {u v w}, guar u v → guar v w → guar u w

variable (c : Contract M L)

/-- From `w` on the call keeps its promise, as long as the other thread does. -/
def Lives : Thread Op Ans L → World M L → Prop
  | .ret _, _ => True
  | .fail, _ => False
  | .step o k, w => ∀ w', c.inv w' → c.rely w w' →
      let r := respond o w'.mem
      let w1 := settle (k r.1) ⟨r.2, w'.log⟩
      c.guar w' w1 ∧ Lives (k r.1) w1

/-- The thread may settle here, and lives up to its contract from then on. -/
def Starts (p : Thread Op Ans L) (w : World M L) : Prop := c.guar w (settle p w) ∧ Lives respond c p (settle p w)

/-- Part of a call: it keeps the promise and ends in `post`. -/
def Does (post : α → World M L → Prop) : Prog Op Ans α → World M L → Prop
  | .ret a, w => post a w
  | .fail, _ => False
  | .step o k, w => ∀ w', c.inv w' → c.rely w w' →
      let r := respond o w'.mem
      c.guar w' ⟨r.2, w'.log⟩ ∧ Does post (k r.1) ⟨r.2, w'.log⟩

variable {respond c}

theorem Lives.stable {p : Thread Op Ans L} {w w' : World M L} (h : Lives respond c p w)
    (hr : c.rely w w') : Lives respond c p w' := by
  cases p with
  | ret f => trivial
  | fail => exact h
  | step o k => exact fun v hv hvr => h v hv (c.rely_trans hr hvr)

theorem Does.bind {β : Type} {post : α → World M L → Prop} {post' : β → World M L → Prop}
    {x : Prog Op Ans α} {f : α → Prog Op Ans β} {w : World M L} (h : Does respond c post x w)
    (hf : ∀ a w, post a w → Does respond c post' (f a) w) : Does respond c post' (x >>= f) w := by
  induction x generalizing w with
  | ret a => exact hf a w h
  | fail => exact h.elim
  | step o k ih =>
    intro w' hi hr
    obtain ⟨hg, hk⟩ := h w' hi hr
    exact ⟨hg, ih _ hk⟩

theorem Does.starts {post : α → World M L → Prop} {x : Prog Op Ans α} {f : α → Prog Op Ans (L → L)}
    {w : World M L} (h : Does respond c post x w) (hf : ∀ a w, post a w → Starts respond c (f a) w) :
    Starts respond c (x >>= f : Prog Op Ans (L → L)) w := by
  induction x generalizing w with
  | ret a => exact hf a w h
  | fail => exact h.elim
  | step o k ih =>
    refine ⟨c.guar_refl w, fun w' hi hr => ?_⟩
    obtain ⟨hg, hk⟩ := h w' hi hr
    obtain ⟨hg', hl⟩ := ih _ hk
    exact ⟨c.guar_trans hg hg', hl⟩

theorem starts_last {o : Op} {k : Ans o → Thread Op Ans L} {f : L → L} {w : World M L} (hk : ∀ a, k a = .ret f)
    (h : ∀ w', c.inv w' → c.rely w w' → c.guar w' ⟨(respond o w'.mem).2, f w'.log⟩) :
    Starts respond c (.step o k) w := by
  refine ⟨c.guar_refl w, fun w' hi hr => ?_⟩
  dsimp only
  rw [hk]
  exact ⟨h w' hi hr, trivial⟩

end Thread

structure Pair (Op : Type) (Ans : Op → Type) (M L : Type) where
  world : World M L
  left : Thread Op Ans L
  right : Thread Op Ans L

inductive Turn (C D : Type) where
  | callLeft (c : C)
  | stepLeft
  | callRight (d : D)
  | stepRight

namespace Pair

variable {Op : Type} {Ans : Op → Type} {M L C D : Type}

def begin (call p : Thread Op Ans L) (w : World M L) : Thread Op Ans L × World M L :=
  match p with
  | .ret _ => (call, call.settle w)
  | p => (p, w)

variable (respond : (o : Op) → M → Ans o × M) (left : C → Thread Op Ans L) (right : D → Thread Op Ans L)

def turn (s : Pair Op Ans M L) : Turn C D → Pair Op Ans M L
  | .callLeft c => let r := begin (left c) s.left s.world; { s with left := r.1, world := r.2 }
  | .stepLeft => let r := s.left.advance respond s.world; { s with left := r.1, world := r.2 }
  | .callRight d => let r := begin (right d) s.right s.world; { s with right := r.1, world := r.2 }
  | .stepRight => let r := s.right.advance respond s.world; { s with right := r.1, world := r.2 }

def run (s : Pair Op Ans M L) (sched : List (Turn C D)) : Pair Op Ans M L := sched.foldl (turn respond left right) s

/-- What one side guarantees the other relies on, and both keep the invariant. -/
structure Fits (l r : Thread.Contract M L) : Prop where
  inv : l.inv = r.inv
  left_rely : ∀ {w w'}, r.guar w w' → l.rely w w'
  right_rely : ∀ {w w'}, l.guar w w' → r.rely w w'
  left_keeps : ∀ {w w'}, l.inv w → l.guar w w' → l.inv w'
  right_keeps : ∀ {w w'}, l.inv w → r.guar w w' → l.inv w'

/-- Both sides live up to their contracts. -/
structure Good (l r : Thread.Contract M L) (s : Pair Op Ans M L) : Prop where
  inv : l.inv s.world
  left : s.left.Lives respond l s.world
  right : s.right.Lives respond r s.world

variable {respond left right} {l r : Thread.Contract M L}

theorem begin_spec {c : Thread.Contract M L} {call p : Thread Op Ans L} {w : World M L}
    (hcall : Thread.Starts respond c call w) (hp : p.Lives respond c w) :
    c.guar w (begin call p w).2 ∧ (begin call p w).1.Lives respond c (begin call p w).2 := by
  cases p with
  | ret f => exact hcall
  | fail => exact hp.elim
  | step o k => exact ⟨c.guar_refl w, hp⟩

theorem advance_spec {c : Thread.Contract M L} {p : Thread Op Ans L} {w : World M L}
    (hrefl : c.rely w w) (hi : c.inv w) (hp : p.Lives respond c w) :
    c.guar w (p.advance respond w).2 ∧ (p.advance respond w).1.Lives respond c (p.advance respond w).2 := by
  cases p with
  | ret f => exact ⟨c.guar_refl w, trivial⟩
  | fail => exact hp.elim
  | step o k => exact hp w hi hrefl

theorem Good.turn (hf : Fits l r) (hl : ∀ c w, l.inv w → Thread.Starts respond l (left c) w)
    (hr : ∀ d w, l.inv w → Thread.Starts respond r (right d) w) {s : Pair Op Ans M L}
    (h : Good respond l r s) (t : Turn C D) : Good respond l r (s.turn respond left right t) := by
  have hi : r.inv s.world := hf.inv ▸ h.inv
  cases t with
  | callLeft c =>
    obtain ⟨hg, hlive⟩ := begin_spec (hl c _ h.inv) h.left
    exact ⟨hf.left_keeps h.inv hg, hlive, h.right.stable (hf.right_rely hg)⟩
  | stepLeft =>
    obtain ⟨hg, hlive⟩ := advance_spec (hf.left_rely (r.guar_refl _)) h.inv h.left
    exact ⟨hf.left_keeps h.inv hg, hlive, h.right.stable (hf.right_rely hg)⟩
  | callRight d =>
    obtain ⟨hg, hlive⟩ := begin_spec (hr d _ h.inv) h.right
    exact ⟨hf.right_keeps h.inv hg, h.left.stable (hf.left_rely hg), hlive⟩
  | stepRight =>
    obtain ⟨hg, hlive⟩ := advance_spec (hf.right_rely (l.guar_refl _)) hi h.right
    exact ⟨hf.right_keeps h.inv hg, h.left.stable (hf.left_rely hg), hlive⟩

theorem Good.run (hf : Fits l r) (hl : ∀ c w, l.inv w → Thread.Starts respond l (left c) w)
    (hr : ∀ d w, l.inv w → Thread.Starts respond r (right d) w) {s : Pair Op Ans M L}
    (h : Good respond l r s) (sched : List (Turn C D)) : Good respond l r (s.run respond left right sched) := by
  induction sched generalizing s with
  | nil => exact h
  | cons t ts ih => exact ih (h.turn hf hl hr t)

end Pair

end EnclaveOs.Lib
