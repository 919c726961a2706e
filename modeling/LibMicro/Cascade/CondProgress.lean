import LibMicro.Cascade.CondRefinement

namespace LibMicro.Cascade

open TransitionSystem

namespace Cond

variable {ι : Type} [DecidableEq ι] {opto : Bool} {s s' : State ι} {a : Act ι} {t u : ι}

def Quiet (opto : Bool) (s : State ι) : Prop :=
  ∀ a : Act ι, a.isSpurious = false → s.pc a.thread ≠ .idle → step opto s a = none

theorem holds_act {p : Pc} (h : p.holds opto = true) (hp : s.pc t = p) :
    ∃ a : Act ι, a.thread = t ∧ a.isSpurious = false ∧ step opto s a ≠ none := by
  cases p with
  | idle | blockLock | condWait | unblockLock => cases h
  | test => exact ⟨.test t, rfl, rfl, by simp [step, hp]⟩
  | wait => exact ⟨.condWait t, rfl, rfl, by simp [step, hp]⟩
  | set => exact ⟨.set t, rfl, rfl, by simp [step, hp]⟩
  | blockUnlock => exact ⟨.blockReturn t, rfl, rfl, by simp [step, hp]⟩
  | store => exact ⟨.store t, rfl, rfl, by simp [step, hp]⟩
  | unblockUnlock => exact ⟨.mutexUnlock t, rfl, rfl, by simp [step, hp]⟩
  | unblockSignal =>
    rcases s.cvs.eq_empty_or_nonempty with he | ⟨u, hu⟩
    · exact ⟨.condSignal t none, rfl, rfl, by simp [step, hp, he]⟩
    · exact ⟨.condSignal t (some u), rfl, rfl, by simp [step, hp, hu]⟩

theorem Quiet.mutex (hq : Quiet opto s) (hi : CondOk opto s) : s.mutex = none := by
  by_contra hne
  obtain ⟨t, ht⟩ := Option.ne_none_iff_exists'.mp hne
  have hh := (hi.owner t).mp ht
  obtain ⟨a, rfl, ha, hs⟩ := holds_act hh rfl
  refine hs (hq a ha fun hidle ↦ ?_)
  rw [hidle] at hh
  cases hh

theorem Quiet.signal (hq : Quiet opto s) : s.pc t ≠ .unblockSignal := by
  intro hp
  rcases s.cvs.eq_empty_or_nonempty with he | ⟨u, hu⟩
  · have h := hq (.condSignal t none) rfl (by simp [Act.thread, hp])
    simp [step, hp, he] at h
  · have h := hq (.condSignal t (some u)) rfl (by simp [Act.thread, hp])
    simp [step, hp, hu] at h

theorem Quiet.asleep (hq : Quiet opto s) (hi : CondOk opto s) (hp : s.pc t ≠ .idle) :
    t ∈ s.cvs ∧ s.conds ≠ 0 := by
  have hm := hq.mutex hi
  have hlock (u : ι) (hu : s.pc u ≠ .idle) {p : Pc} (hl : (s.pc u).locked = some p) : u ∈ s.cvs := by
    by_contra hout
    have h := hq (.mutexLock u) rfl hu
    simp [step, hl, hm, hout] at h
  have hcvs : t ∈ s.cvs := by
    cases hpc : s.pc t with
    | idle => exact absurd hpc hp
    | blockLock | condWait | unblockLock => exact hlock t hp (by rw [hpc]; rfl)
    | test | wait | set | blockUnlock | store | unblockUnlock =>
      cases (hi.holder (t := t) (by rw [hpc]; rfl)).symm.trans hm
    | unblockSignal => exact absurd hpc hq.signal
  refine ⟨hcvs, fun h0 ↦ ?_⟩
  obtain ⟨u, -, hu | ⟨hu, hout⟩⟩ := hi.no_lost_wakeup hm h0 hcvs
  · exact hq.signal hu
  · exact hout (hlock u (by simp [hu]) (by rw [hu]; rfl))

/-- A bound on what a thread that is awake still executes before it returns or sleeps,
and for a signal what the thread it wakes up executes again. -/
def Pc.rank (opto : Bool) : Pc → ℕ
  | .idle => 0
  | .blockUnlock => 1
  | .set => 2
  | .wait => 4
  | .test => 5
  | .blockLock | .condWait => 6
  | .unblockUnlock => if opto then 7 else 1
  | .unblockSignal => 6
  | .store => 8
  | .unblockLock => 9

def State.left (opto : Bool) (s : State ι) (t : ι) : ℕ :=
  if t ∈ s.cvs then 3 else (s.pc t).rank opto

def State.todo [Fintype ι] (opto : Bool) (s : State ι) : ℕ := ∑ t, s.left opto t

variable [Fintype ι]

end Cond

namespace CondRing

variable {N : ℕ} {opto : Bool} {s s' : State N} {t : Cascade.State N} {u v : Fin N} {c : Call}

def Act.isSpurious : Act N → Bool
  | .inside a => a.isSpurious
  | .call _ | .turn _ => false

def Stuck (opto : Bool) (s : State N) : Prop :=
  ∀ a, a.isSpurious = false → step opto s a = none

theorem Stuck.quiet (hk : Stuck opto s) (h : CallsOk opto s) (i : ℕ) :
    Cond.Quiet opto (s.sync i) := by
  intro a ha hp
  cases h.worker a.thread with
  | out _ hout => exact absurd (hout i) hp
  | busy c hcall hc _ hidle htsd =>
    have hi : i = (ring N a.thread).index c.name := by
      by_contra hne
      exact hp (hidle i hne)
    have hs := hk (.inside a) ha
    simp only [step, hc, hcall, htsd, if_true] at hs
    exact hi ▸ Option.map_eq_none_iff.mp hs

theorem Stuck.not_done (hk : Stuck opto s) (h : CallsOk opto s) (u : Fin N) : ¬ s.Done u := by
  rintro ⟨i, hi⟩
  have hp : (s.sync i).pc u ≠ .idle := by
    intro hp
    rw [hp] at hi
    cases hi
  have hsleep := (h.sync i).asleep u ((hk.quiet h i).asleep (h.sync i) hp).1
  rw [hsleep] at hi
  cases hi

/-- If nobody can go on, then nobody can in the cascade with locks. -/
theorem Stuck.locks (hk : Stuck opto s) (h : CallsOk opto s) (ht : RingOk t) (hr : Rel s t)
    (u : Fin N) : Cascade.step benchmark t u = none := by
  have hpos (v : Fin N) : t.pos v = s.pos v := hr.pos_eq (hk.not_done h v)
  have hall (p : ℕ) : t.AllAt u p → s.AllAt u p := by
    intro ha v
    have hv := ha v
    rwa [hr.round, hpos] at hv
  by_contra hne
  obtain ⟨t', hst⟩ := Option.ne_none_iff_exists'.mp hne
  rcases Cascade.step_cases hst with ⟨c, locks, hc, ha, hs, -⟩ | ⟨hp, ha, -⟩
  · rw [hpos] at hc ha
    cases h.worker u with
    | out hcall hout =>
      have hs := hk (.call u) rfl
      simp only [step, hc, if_pos (And.intro hcall fun h1 ↦ hall 1 (ha h1)),
        Option.map_eq_none_iff] at hs
      cases c <;> simp [enter, Cond.step, hout] at hs
    | busy c' _ hc' hruns =>
      rw [hc] at hc'
      cases hc'
      have hp : (s.sync ((ring N u).index c.name)).pc u ≠ .idle := by
        intro hp
        rw [hp] at hruns
        exact hruns.ne_out rfl
      obtain ⟨hcvs, hconds⟩ := (hk.quiet h _).asleep (h.sync _) hp
      rw [(h.sync _).asleep u hcvs] at hruns
      cases c with
      | unblock n => rcases hruns with hruns | hruns <;> cases hruns
      | block n =>
        rw [ht.tsd.ready] at hs
        exact hconds ((hr.locks _).mp (callStep_block hs))
  · rw [hpos] at hp
    have hs := hk (.turn u) rfl
    simp only [step, List.getElem?_eq_none_iff.mpr hp, true_and, if_pos (hall _ ha)] at hs
    cases hs

def State.before (s : State N) (u : Fin N) : ℕ := 10 * (12 - s.pos u - if s.calling u then 1 else 0)

/-- The calls of the round that have not been made, and what is left of those that have. -/
def State.todo (opto : Bool) (s : State N) : ℕ :=
  ∑ u, s.before u + ∑ i ∈ Finset.range (N * 2), (s.sync i).todo opto

end CondRing

end LibMicro.Cascade
