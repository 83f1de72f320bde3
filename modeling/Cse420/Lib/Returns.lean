import Cse420.Lib.Interference

/-!
Programs that pass a state on and may come to a step without a result. A
program is right from a state if it comes to its end there and the state and
the value it ends with are as they should be. One thread amid the events of
others is such a program where an event, too, may have no result; a plain thread
follows it if some list of portions makes the plain one do the same.
-/

namespace Cse420

open Interference

variable {σ τ ε β γ : Type}

/-- From this state the program comes to its end, with what `post` says. -/
def Returns (p : StateT σ Option β) (s : σ) (post : β → σ → Prop) : Prop :=
  ∃ b t, p.run s = some (b, t) ∧ post b t

theorem Returns.pure {b : β} {s : σ} {post : β → σ → Prop} (h : post b s) :
    Returns (Pure.pure b) s post := ⟨b, s, rfl, h⟩

theorem Returns.bind {p : StateT σ Option β} {f : β → StateT σ Option γ} {s : σ}
    {mid : β → σ → Prop} {post : γ → σ → Prop} (h : Returns p s mid)
    (hf : ∀ b t, mid b t → Returns (f b) t post) : Returns (p >>= f) s post := by
  obtain ⟨b, t, hp, hmid⟩ := h
  obtain ⟨c, u, hq, hpost⟩ := hf b t hmid
  refine ⟨c, u, ?_, hpost⟩
  rw [StateT.run_bind, hp]
  exact hq

theorem Returns.imp {p : StateT σ Option β} {s : σ} {post post' : β → σ → Prop}
    (h : Returns p s post) (himp : ∀ b t, post b t → post' b t) : Returns p s post' := by
  obtain ⟨b, t, hp, hpost⟩ := h
  exact ⟨b, t, hp, himp b t hpost⟩

/-- A value that may be missing, and is there. -/
theorem Returns.lift {o : Option β} {b : β} {s : σ} {post : β → σ → Prop} (ho : o = some b)
    (h : post b s) : Returns (liftM o : StateT σ Option β) s post := by
  rw [ho]
  exact ⟨b, s, rfl, h⟩

theorem Returns.some (b : β) (s : σ) :
    Returns (liftM (Option.some b) : StateT σ Option β) s fun c t => c = b ∧ t = s :=
  ⟨b, s, rfl, rfl, rfl⟩

namespace Interference

/-- A step of the thread that no event comes before. -/
def perform (f : StateT σ Option β) : StateT (World σ ε) Option β := fun w =>
  (f w.state).map fun result => (result.1, ⟨result.2, w.schedule⟩)

/-- The events that occur before the next step. -/
def await (env : σ → ε → Option σ) : StateT (World σ ε) Option Unit := fun w =>
  match w.schedule with
  | [] => some ((), w)
  | now :: later => (now.foldlM env w.state).map fun s => ((), ⟨s, later⟩)

/-- One step, after what occurs before it. -/
def act? (env : σ → ε → Option σ) (f : StateT σ Option β) : StateT (World σ ε) Option β := do
  await env
  perform f

theorem perform_returns {f : StateT σ Option β} {w : World σ ε} {post : β → World σ ε → Prop}
    (h : Returns f w.state fun b s => post b ⟨s, w.schedule⟩) : Returns (perform f) w post := by
  obtain ⟨b, s, hf, hpost⟩ := h
  refine ⟨b, ⟨s, w.schedule⟩, ?_, hpost⟩
  show (f w.state).map _ = _
  rw [show f w.state = some (b, s) from hf]
  rfl

/-- A step that only reads. -/
theorem perform_read {f : StateT σ Option β} {w : World σ ε} {b : β}
    (h : f.run w.state = some (b, w.state)) : Returns (perform f) w fun c v => c = b ∧ v = w :=
  perform_returns ⟨b, w.state, h, rfl, rfl⟩

theorem foldlM_quiet {env : σ → ε → Option σ} {s : σ} (henv : ∀ event, env s event = some s)
    (events : List ε) : events.foldlM env s = some s := by
  induction events with
  | nil => rfl
  | cons event rest ih =>
      rw [List.foldlM_cons, henv]
      exact ih

/-- A step where no event changes anything any more. -/
theorem act?_quiet {env : σ → ε → Option σ} {f : StateT σ Option β} {w : World σ ε} {b : β}
    {t : σ} (henv : ∀ event, env w.state event = some w.state)
    (hf : f.run w.state = some (b, t)) :
    Returns (act? env f) w fun c v => c = b ∧ v.state = t := by
  obtain ⟨s, schedule⟩ := w
  have hawait : Returns (await env) ⟨s, schedule⟩ fun _ v => v.state = s := by
    cases schedule with
    | nil => exact ⟨(), _, rfl, rfl⟩
    | cons now later =>
        refine ⟨(), ⟨s, later⟩, ?_, rfl⟩
        show (now.foldlM env s).map _ = _
        rw [foldlM_quiet henv now]
        rfl
  apply hawait.bind
  rintro - v rfl
  exact perform_returns ⟨b, t, hf, rfl, rfl⟩

/-- Some portions take the plain thread from one state to another, whatever comes
behind them. -/
def Reaches (f : World τ ε → Option (World τ ε)) (s t : τ) : Prop :=
  ∃ portions, ∀ later, f ⟨s, portions ++ later⟩ = some ⟨t, later⟩

theorem Reaches.bind {f g : World τ ε → Option (World τ ε)} {s t u : τ} (hf : Reaches f s t)
    (hg : Reaches g t u) : Reaches (fun w => f w >>= g) s u := by
  obtain ⟨first, hfirst⟩ := hf
  obtain ⟨second, hsecond⟩ := hg
  refine ⟨first ++ second, ?_⟩
  intro later
  show f ⟨s, first ++ second ++ later⟩ >>= g = _
  rw [List.append_assoc, hfirst]
  exact hsecond later

theorem Reaches.refl (s : τ) : Reaches (ε := ε) some s s := ⟨[], fun _ => rfl⟩

/-- Every event of the thread has one of the plain thread that keeps them
related. -/
def Keeps (env : σ → ε → Option σ) (plain : τ → ε → τ) (R : σ → τ → Prop) : Prop :=
  ∀ s t event, R s t → ∃ s' event', env s event = some s' ∧ R s' (plain t event')

theorem Keeps.foldlM {env : σ → ε → Option σ} {plain : τ → ε → τ} {R : σ → τ → Prop}
    (h : Keeps env plain R) (events : List ε) {s : σ} {t : τ} (hs : R s t) :
    ∃ (s' : σ) (events' : List ε), events.foldlM env s = some s' ∧
      R s' (events'.foldl plain t) := by
  induction events generalizing s t with
  | nil => exact ⟨s, [], rfl, hs⟩
  | cons event rest ih =>
      obtain ⟨s', event', henv, hs'⟩ := h s t event hs
      obtain ⟨s'', events', hrest, hs''⟩ := ih hs'
      refine ⟨s'', event' :: events', ?_, hs''⟩
      rw [List.foldlM_cons, henv]
      exact hrest

theorem Keeps.await {env : σ → ε → Option σ} {plain : τ → ε → τ} {R : σ → τ → Prop}
    (h : Keeps env plain R) {w : World σ ε} {t : τ} (hw : R w.state t) :
    Returns (await env) w fun _ v =>
      ∃ u, R v.state u ∧ Reaches (fun w => some (tick plain w)) t u := by
  obtain ⟨s, schedule⟩ := w
  cases schedule with
  | nil => exact ⟨(), _, rfl, t, hw, [[]], fun _ => rfl⟩
  | cons now later =>
      obtain ⟨s', events, hnow, hs'⟩ := h.foldlM now hw
      refine ⟨(), ⟨s', later⟩, ?_, _, hs', [events], fun _ => rfl⟩
      show (now.foldlM env s).map _ = _
      rw [hnow]
      rfl

/-- A step that keeps the two related, with the events before it. -/
theorem Keeps.act {env : σ → ε → Option σ} {plain : τ → ε → τ} {R : σ → τ → Prop}
    {f : StateT σ Option β} {g : τ → τ} {q : β → σ → τ → Prop} (h : Keeps env plain R)
    (hf : ∀ s t, R s t → Returns f s fun b s' => q b s' (g t)) {w : World σ ε} {t : τ}
    (hw : R w.state t) : Returns (act? env f) w fun b v =>
      ∃ u, q b v.state u ∧ Reaches (fun w => some (act plain g w)) t u := by
  apply (h.await hw).bind
  rintro - v ⟨u, hu, portions, hportions⟩
  apply perform_returns
  apply (hf v.state u hu).imp
  intro b s' hpost
  refine ⟨g u, hpost, portions, ?_⟩
  intro later
  have htick : tick plain ⟨t, portions ++ later⟩ = ⟨u, later⟩ :=
    Option.some.inj (hportions later)
  show some (Interference.act plain g ⟨t, portions ++ later⟩) = _
  unfold Interference.act
  rw [htick]

end Interference

end Cse420
