import GoFtrace.EventManager.Accounting
import GoFtrace.EventManager.Tally

/-!
# Discarded samples

A run over the samples of `ftrace.c`, of which any event may be lost, with a ledger of the
samples that `droppedStacks` counts, and the cleanup of `PrintRemaining` at its end.

* `audit_sound`: no sample is counted twice unless one that was rejected over the memory
  budget is aborted or rejected again.
* `counted_once_iff`: the runs in which every discarded sample is counted once.
-/

namespace GoFtrace.EventManager

open Lib Uprobe

/-! ## The cleanup at the end -/

/-- The goroutines with retained events, process by process. -/
def remaining (m : EventManager) : List TraceKey :=
  m.pids.entries.flatMap fun p => p.2.goEvents.keys.map fun goid => { pid := p.1, goid := goid }

/-- Whether `PrintStack` returns an error: an address that does not resolve. -/
def printFails (cfg : Config) (events : List Event) : Bool :=
  events.any fun e =>
    let event := e.goftraceEvent
    (Elf.resolveAddress cfg.symbols event.ip).isNone ||
      (event.location == Bpf.entPoint && event.callerIp != 0 &&
        (Elf.resolveAddress cfg.symbols event.callerIp).isNone)

/-- The goroutines of a process that `PrintRemaining` prints, up to the first error. -/
def printedGoids (cfg : Config) (s : PidState) : List UInt64 :=
  s.goEvents.keys.take (s.goEvents.keys.findIdx (fun goid => printFails cfg (s.events goid)) + 1)

/-- `PrintRemaining`. The order of the two maps does not matter to the counters. -/
def printRemaining (cfg : Config) (m : EventManager) : EventManager :=
  if cfg.aggregate then m.remaining.foldl (fun m k => dropStack cfg (countIncomplete m) k) m
  else m.pids.entries.foldl
    (fun m p => (printedGoids cfg p.2).foldl (fun m _ => m.pidState cfg p.1) m) m

/-! ## Runs over samples -/

/-- A delivered event, with the number of the sample of its goroutine that it belongs to. -/
structure Arrival where
  event : GoftraceEvent
  env : Env
  sample : Nat

/-- A sample: its goroutine and its number. -/
abbrev SampleId := TraceKey × Nat

def Arrival.id (a : Arrival) : SampleId := (a.event.key, a.sample)

/-- Two delivered events of one goroutine: its samples follow each other, nothing of a sample
comes before its start or behind its end. -/
def InOrder (a b : Arrival) : Prop :=
  a.event.key = b.event.key → a.sample ≤ b.sample ∧
    (a.sample = b.sample → endsSample a.event = false ∧ hasFlag b.event Bpf.traceStart = false)

/-- The events that are delivered follow the sample protocol; any of them may be missing. -/
def FollowsProtocol (arrivals : List Arrival) : Prop := arrivals.Pairwise InOrder

/-- What a run has done to the samples. -/
structure Ledger where
  /-- The sample of the latest event of a goroutine. -/
  latest : TraceKey → Nat := fun _ => 0
  /-- A sample for each count of `droppedStacks`. -/
  counted : List SampleId := []
  /-- A sample for each stack that is aggregated. -/
  aggregated : List SampleId := []
  /-- A sample for each event that is rejected over the budget. -/
  overBudget : List SampleId := []

/-- The entries of a call. A stale sample is the one of the latest event before. -/
def Ledger.record (cfg : Config) (m : EventManager) (l : Ledger) (a : Arrival) : Ledger :=
  let k := a.event.key
  { latest := Function.update l.latest k a.sample
    counted := List.replicate (ownCounts cfg a.env m a.event) a.id ++
      (List.replicate (resetsStale cfg m a.event).toNat (k, l.latest k) ++ l.counted)
    aggregated :=
      List.replicate (handle cfg a.env m a.event).2.isAggregated.toNat a.id ++ l.aggregated
    overBudget :=
      List.replicate (EventManager.overBudget cfg m a.event).toNat a.id ++ l.overBudget }

/-- The entries of the cleanup. -/
def Ledger.close (cfg : Config) (m : EventManager) (l : Ledger) : Ledger :=
  if cfg.aggregate then
    { l with counted := m.remaining.map (fun k => (k, l.latest k)) ++ l.counted }
  else l

/-- A run, with its ledger. -/
def audit (cfg : Config) : EventManager → Ledger → List Arrival → EventManager × Ledger
  | m, l, [] => (m, l)
  | m, l, a :: arrivals =>
    audit cfg (handle cfg a.env m a.event).1 (l.record cfg m a) arrivals

/-- No sample is counted twice, and none is counted and aggregated. -/
def CountedOnce (l : Ledger) : Prop := l.counted.Nodup ∧ ∀ s ∈ l.aggregated, s ∉ l.counted

/-- An event of a sample that was rejected over the budget aborts the sample, or is rejected
over the budget again. -/
def Recounts (cfg : Config) (m : EventManager) (l : Ledger) (a : Arrival) : Prop :=
  a.id ∈ l.overBudget ∧
    (aborts cfg a.event = true ∨ EventManager.overBudget cfg m a.event = true)

/-- No event of a run recounts its sample. -/
def NoRecount (cfg : Config) : EventManager → Ledger → List Arrival → Prop
  | _, _, [] => True
  | m, l, a :: arrivals =>
    ¬ Recounts cfg m l a ∧ NoRecount cfg (handle cfg a.env m a.event).1 (l.record cfg m a) arrivals

/-- The manager of an audit is the one of the run. -/
theorem audit_fst (cfg : Config) (arrivals : List Arrival) (m : EventManager) (l : Ledger) :
    (audit cfg m l arrivals).1 =
      (handleAll cfg m (arrivals.map fun a => (a.event, a.env))).1 := by
  induction arrivals generalizing m l with
  | nil => rfl
  | cons a arrivals ih => exact ih _ _

/-! ## One event -/

/-- What is known of the samples of a run. -/
structure Sound (done : List Arrival) (m : EventManager) (l : Ledger) : Prop where
  nodup : (l.counted ++ l.aggregated).Nodup
  /-- The latest event of a goroutine is a delivered one. -/
  latest : ∀ a ∈ done, ∃ b ∈ done, b.id = (a.event.key, l.latest a.event.key)
  seen : ∀ s ∈ l.counted ++ l.aggregated, s.2 ≤ l.latest s.1 ∧ ∃ a ∈ done, a.event.key = s.1
  opened : ∀ k, m.events k ≠ [] → ∃ a ∈ done, a.event.key = k
  /-- A sample that is counted or aggregated retains nothing. -/
  empty : ∀ s ∈ l.counted ++ l.aggregated, s.2 = l.latest s.1 → m.events s.1 = []
  last : ∀ s ∈ l.counted ++ l.aggregated, s.2 = l.latest s.1 →
    s ∈ l.overBudget ∨ ∃ a ∈ done, a.id = s ∧ endsSample a.event = true

theorem sound_empty : Sound [] {} {} where
  nodup := List.nodup_nil
  latest _ h := absurd h List.not_mem_nil
  seen _ h := absurd h List.not_mem_nil
  opened _ h := absurd rfl h
  empty _ h := absurd h List.not_mem_nil
  last _ h := absurd h List.not_mem_nil

section
variable {cfg : Config} {m : EventManager} {l : Ledger} {done : List Arrival} {a : Arrival}

/-- The samples of the ledger after an event: a stale one, the one of the event, and those
before. -/
theorem record_perm :
    ((l.record cfg m a).counted ++ (l.record cfg m a).aggregated).Perm
      (List.replicate (ownCounts cfg a.env m a.event +
          (handle cfg a.env m a.event).2.isAggregated.toNat) a.id ++
        (List.replicate (resetsStale cfg m a.event).toNat (a.event.key, l.latest a.event.key) ++
          (l.counted ++ l.aggregated))) := by
  unfold Ledger.record
  dsimp only
  rw [List.replicate_add]
  generalize List.replicate (ownCounts cfg a.env m a.event) a.id = xs
  generalize List.replicate (resetsStale cfg m a.event).toNat _ = ys
  generalize List.replicate (Outcome.isAggregated _).toNat a.id = zs
  simp only [List.append_assoc]
  refine List.Perm.append_left xs ?_
  have hmove := List.perm_append_comm_assoc (ys ++ l.counted) zs l.aggregated
  simpa only [List.append_assoc] using hmove

/-- A later event of a goroutine belongs to the latest sample or to a later one. -/
theorem Sound.latest_le (h : Sound done m l) (horder : ∀ b ∈ done, InOrder b a)
    (hseen : ∃ b ∈ done, b.event.key = a.event.key) :
    l.latest a.event.key ≤ a.sample ∧
      (l.latest a.event.key = a.sample → hasFlag a.event Bpf.traceStart = false) := by
  obtain ⟨b, hb, hkey⟩ := hseen
  obtain ⟨c, hc, hid⟩ := h.latest b hb
  rw [hkey] at hid
  obtain ⟨hckey, hcsample⟩ := Prod.mk.inj hid
  obtain ⟨hle, hsame⟩ := horder c hc hckey
  rw [hcsample] at hle hsame
  exact ⟨hle, fun heq => (hsame heq).2⟩

/-- Of a sample that is counted or aggregated, no later event starts anything, and none counts
it again unless it recounts it. -/
theorem Sound.spent (h : Sound done m l) (horder : ∀ b ∈ done, InOrder b a)
    (hno : ¬ Recounts cfg m l a) (hmem : a.id ∈ l.counted ++ l.aggregated) :
    m.events a.event.key = [] ∧ hasFlag a.event Bpf.traceStart = false ∧
      aborts cfg a.event = false ∧ overBudget cfg m a.event = false ∧ a.id ∈ l.overBudget := by
  obtain ⟨hle, hseen⟩ := h.seen a.id hmem
  obtain ⟨hge, hstart⟩ := h.latest_le horder hseen
  have heq : a.sample = l.latest a.event.key := Nat.le_antisymm hle hge
  have hover : a.id ∈ l.overBudget := by
    rcases h.last a.id hmem heq with hover | ⟨b, hb, hid, hends⟩
    · exact hover
    · obtain ⟨hkey, hsample⟩ := Prod.mk.inj hid
      rw [((horder b hb hkey).2 hsample).1] at hends
      cases hends
  refine ⟨h.empty a.id hmem heq, hstart heq.symm, ?_, ?_, hover⟩
  · exact Bool.eq_false_iff.mpr fun haborts => hno ⟨hover, .inl haborts⟩
  · exact Bool.eq_false_iff.mpr fun hagain => hno ⟨hover, .inr hagain⟩

/-- A sample in the ledger after an event. -/
theorem mem_record {s : SampleId}
    (h : s ∈ (l.record cfg m a).counted ++ (l.record cfg m a).aggregated) :
    (s = a.id ∧ 0 < ownCounts cfg a.env m a.event +
        (handle cfg a.env m a.event).2.isAggregated.toNat) ∨
      (s = (a.event.key, l.latest a.event.key) ∧ resetsStale cfg m a.event = true) ∨
      s ∈ l.counted ++ l.aggregated := by
  rw [record_perm.mem_iff, List.mem_append, List.mem_append, List.mem_replicate,
    List.mem_replicate] at h
  rcases h with ⟨hpos, heq⟩ | ⟨hpos, heq⟩ | hold
  · exact .inl ⟨heq, Nat.pos_of_ne_zero hpos⟩
  · refine .inr (.inl ⟨heq, ?_⟩)
    cases hstale : resetsStale cfg m a.event with
    | true => rfl
    | false =>
      rw [hstale] at hpos
      exact absurd rfl hpos
  · exact .inr (.inr hold)

theorem resetsStale_iff : resetsStale cfg m a.event = true ↔ asksAdmission cfg a.event = true ∧
    hasFlag a.event Bpf.traceStart = true ∧ m.events a.event.key ≠ [] := by
  simp [resetsStale, List.length_pos_iff]

/-- The stale sample is an older one that is not in the ledger. -/
theorem Sound.stale (h : Sound done m l) (horder : ∀ b ∈ done, InOrder b a)
    (hstale : resetsStale cfg m a.event = true) :
    (a.event.key, l.latest a.event.key) ∉ l.counted ++ l.aggregated ∧
      l.latest a.event.key < a.sample := by
  obtain ⟨-, hstart, hne⟩ := resetsStale_iff.mp hstale
  obtain ⟨hle, hsame⟩ := h.latest_le horder (h.opened a.event.key hne)
  refine ⟨fun hmem => hne (h.empty _ hmem rfl), lt_of_le_of_ne hle fun heq => ?_⟩
  rw [hsame heq] at hstart
  cases hstart

/-- The sample of an event that settles it is not in the ledger. -/
theorem Sound.fresh (h : Sound done m l) (horder : ∀ b ∈ done, InOrder b a)
    (hno : ¬ Recounts cfg m l a)
    (hcause : aborts cfg a.event = true ∨ overBudget cfg m a.event = true ∨
      hasFlag a.event Bpf.traceStart = true ∨ m.events a.event.key ≠ []) :
    a.id ∉ l.counted ++ l.aggregated := by
  intro hmem
  obtain ⟨hempty, hstart, haborts, hover, -⟩ := h.spent horder hno hmem
  rcases hcause with hcause | hcause | hcause | hcause
  · rw [haborts] at hcause
    cases hcause
  · rw [hover] at hcause
    cases hcause
  · rw [hstart] at hcause
    cases hcause
  · exact hcause hempty

/-- The ledger stays without repetition. -/
theorem Sound.record_nodup (h : Sound done m l) (ha : cfg.adaptive = true)
    (horder : ∀ b ∈ done, InOrder b a) (hno : ¬ Recounts cfg m l a) :
    ((l.record cfg m a).counted ++ (l.record cfg m a).aggregated).Nodup := by
  have hstale : (List.replicate (resetsStale cfg m a.event).toNat
      (a.event.key, l.latest a.event.key) ++ (l.counted ++ l.aggregated)).Nodup := by
    cases hs : resetsStale cfg m a.event with
    | false => exact h.nodup
    | true => exact List.nodup_cons.mpr ⟨(h.stale horder hs).1, h.nodup⟩
  rw [record_perm.nodup_iff]
  cases handle_verdict ha a.env m a.event with
  | unsettled hcount haggregated _ =>
    rw [hcount, haggregated]
    exact hstale
  | settled hcount _ _ hcause =>
    rw [hcount, List.replicate_one, List.singleton_append, List.nodup_cons]
    refine ⟨fun hmem => ?_, hstale⟩
    rcases List.mem_append.mp hmem with hmem | hmem
    · obtain ⟨hpos, heq⟩ := List.mem_replicate.mp hmem
      cases hs : resetsStale cfg m a.event with
      | false =>
        rw [hs] at hpos
        exact hpos rfl
      | true => exact absurd (Prod.mk.inj heq).2 (Nat.ne_of_gt (h.stale horder hs).2)
    · exact h.fresh horder hno hcause hmem

theorem record_latest (k : TraceKey) : (l.record cfg m a).latest k =
    if k = a.event.key then a.sample else l.latest k := by
  by_cases hk : k = a.event.key
  · subst hk
    rw [if_pos rfl]
    exact Function.update_self ..
  · rw [if_neg hk]
    exact Function.update_of_ne hk ..

/-- The latest sample of a goroutine, when it is in the ledger after an event. -/
theorem Sound.record_cases (h : Sound done m l) (horder : ∀ b ∈ done, InOrder b a) {s : SampleId}
    (hs : s ∈ (l.record cfg m a).counted ++ (l.record cfg m a).aggregated)
    (heq : s.2 = (l.record cfg m a).latest s.1) :
    (s = a.id ∧ (0 < ownCounts cfg a.env m a.event +
        (handle cfg a.env m a.event).2.isAggregated.toNat ∨ a.id ∈ l.counted ++ l.aggregated)) ∨
      (s.1 ≠ a.event.key ∧ s ∈ l.counted ++ l.aggregated ∧ s.2 = l.latest s.1) := by
  rw [record_latest] at heq
  rcases mem_record hs with ⟨rfl, hpos⟩ | ⟨rfl, hstale⟩ | hold
  · exact .inl ⟨rfl, .inl hpos⟩
  · rw [if_pos rfl] at heq
    exact absurd heq (Nat.ne_of_lt (h.stale horder hstale).2)
  · split at heq
    · rename_i hk
      obtain rfl : s = a.id := Prod.ext hk heq
      exact .inl ⟨rfl, .inr hold⟩
    · rename_i hk
      exact .inr ⟨hk, hold, heq⟩

/-- The ledger stays sound. -/
theorem Sound.record (h : Sound done m l) (ha : cfg.adaptive = true)
    (horder : ∀ b ∈ done, InOrder b a) (hno : ¬ Recounts cfg m l a) :
    Sound (done ++ [a]) (handle cfg a.env m a.event).1 (l.record cfg m a) where
  nodup := h.record_nodup ha horder hno
  latest b hb := by
    rw [record_latest]
    split
    · rename_i hk
      exact ⟨a, List.mem_append_right _ List.mem_cons_self, by rw [hk]; rfl⟩
    · rename_i hk
      rcases List.mem_append.mp hb with hb | hb
      · obtain ⟨c, hc, hid⟩ := h.latest b hb
        exact ⟨c, List.mem_append_left _ hc, hid⟩
      · rw [List.mem_singleton.mp hb] at hk
        exact absurd rfl hk
  seen s hs := by
    rw [record_latest]
    rcases mem_record hs with ⟨rfl, -⟩ | ⟨rfl, hstale⟩ | hold
    · exact ⟨(if_pos rfl).ge, a, by simp, rfl⟩
    · exact ⟨(Nat.le_of_lt (h.stale horder hstale).2).trans (if_pos rfl).ge, a, by simp, rfl⟩
    · obtain ⟨hle, b, hb, hkey⟩ := h.seen s hold
      refine ⟨?_, b, List.mem_append_left _ hb, hkey⟩
      split
      · rename_i hk
        rw [hk] at hle
        exact hle.trans (h.latest_le horder ⟨b, hb, hkey.trans hk⟩).1
      · exact hle
  opened k hk := by
    by_cases heq : k = a.event.key
    · exact ⟨a, by simp, heq.symm⟩
    · rcases handle_sample_of_ne cfg m a.env heq with hsame | hnil
      · obtain ⟨b, hb, hkey⟩ := h.opened k fun hnil => hk (hsame.trans hnil)
        exact ⟨b, List.mem_append_left _ hb, hkey⟩
      · exact absurd hnil hk
  empty s hs heq := by
    rcases h.record_cases horder hs heq with ⟨rfl, hcase⟩ | ⟨hk, hold, hlatest⟩
    · cases handle_verdict ha a.env m a.event with
      | settled _ hempty _ _ => exact hempty
      | unsettled hcount haggregated hcause =>
        rcases hcase with hpos | hmem
        · rw [hcount, haggregated] at hpos
          exact absurd hpos (Nat.lt_irrefl 0)
        · obtain ⟨hempty, hstart, -⟩ := h.spent horder hno hmem
          by_contra hne
          rcases hcause hne with hyes | hopen
          · rw [hstart] at hyes
            cases hyes
          · exact hopen hempty
    · rcases handle_sample_of_ne cfg m a.env hk with hsame | hnil
      · exact hsame.trans (h.empty s hold hlatest)
      · exact hnil
  last s hs heq := by
    have hkeep : s ∈ l.overBudget → s ∈ (l.record cfg m a).overBudget :=
      List.mem_append_right _
    rcases h.record_cases horder hs heq with ⟨rfl, hcase⟩ | ⟨-, hold, hlatest⟩
    · rcases hcase with hpos | hmem
      · cases handle_verdict ha a.env m a.event with
        | settled _ _ hlast _ =>
          rcases hlast with hover | hends
          · refine .inl (List.mem_append_left _ ?_)
            rw [hover]
            exact List.mem_cons_self
          · exact .inr ⟨a, by simp, rfl, hends⟩
        | unsettled hcount haggregated _ =>
          rw [hcount, haggregated] at hpos
          exact absurd hpos (Nat.lt_irrefl 0)
      · exact .inl (hkeep (h.spent horder hno hmem).2.2.2.2)
    · rcases h.last s hold hlatest with hover | ⟨b, hb, hid, hends⟩
      · exact .inl (hkeep hover)
      · exact .inr ⟨b, List.mem_append_left _ hb, hid, hends⟩

end

/-! ## Runs -/

/-- A run without recounts counts no sample twice. -/
theorem audit_sound {cfg : Config} (ha : cfg.adaptive = true) (arrivals : List Arrival)
    {m : EventManager} {l : Ledger} {done : List Arrival} (h : Sound done m l)
    (horder : FollowsProtocol (done ++ arrivals)) (hno : NoRecount cfg m l arrivals) :
    Sound (done ++ arrivals) (audit cfg m l arrivals).1 (audit cfg m l arrivals).2 := by
  induction arrivals generalizing m l done with
  | nil =>
    rw [List.append_nil]
    exact h
  | cons a arrivals ih =>
    have hfirst : ∀ b ∈ done, InOrder b a := fun b hb =>
      (List.pairwise_append.mp horder).2.2 b hb a List.mem_cons_self
    rw [← List.singleton_append, ← List.append_assoc] at horder ⊢
    exact ih (h.record ha hfirst hno.1) horder hno.2

/-- The rejections over the budget are counted. -/
theorem overBudget_record {cfg : Config} (ha : cfg.adaptive = true) {m : EventManager} {l : Ledger}
    (h : l.overBudget ⊆ l.counted) (a : Arrival) :
    (l.record cfg m a).overBudget ⊆ (l.record cfg m a).counted := by
  have hown := (ownCounts_eq ha a.env m a.event).1
  refine List.append_subset.mpr ⟨fun s hs => ?_, fun s hs => ?_⟩
  · obtain ⟨hpos, rfl⟩ := List.mem_replicate.mp hs
    exact List.mem_append_left _ (List.mem_replicate.mpr ⟨by omega, rfl⟩)
  · exact List.mem_append_right _ (List.mem_append_right _ (h hs))

/-- What is counted stays counted. -/
theorem counted_suffix (cfg : Config) (arrivals : List Arrival) (m : EventManager) (l : Ledger) :
    l.counted <:+ (audit cfg m l arrivals).2.counted := by
  induction arrivals generalizing m l with
  | nil => exact List.suffix_refl _
  | cons a arrivals ih =>
    refine List.IsSuffix.trans ?_ (ih _ _)
    exact (List.suffix_append _ _).trans (List.suffix_append _ _)

/-- A recount counts a sample twice. -/
theorem recounts_not_nodup {cfg : Config} (ha : cfg.adaptive = true) {m : EventManager}
    {l : Ledger} {a : Arrival} (h : l.overBudget ⊆ l.counted) (hre : Recounts cfg m l a) :
    ¬ (l.record cfg m a).counted.Nodup := by
  have hown := (ownCounts_eq ha a.env m a.event).1
  have hpos : 0 < ownCounts cfg a.env m a.event := by
    rcases hre.2 with haborts | hover
    · rw [haborts, Bool.toNat_true] at hown
      omega
    · rw [hover, Bool.toNat_true] at hown
      omega
  intro hnodup
  have hmem : a.id ∈ List.replicate (ownCounts cfg a.env m a.event) a.id :=
    List.mem_replicate.mpr ⟨Nat.ne_of_gt hpos, rfl⟩
  exact List.disjoint_of_nodup_append hnodup hmem (List.mem_append_right _ (h hre.1))

/-- A run that counts no sample twice has no recounts. -/
theorem noRecount_of_nodup {cfg : Config} (ha : cfg.adaptive = true) (arrivals : List Arrival)
    {m : EventManager} {l : Ledger} (h : l.overBudget ⊆ l.counted)
    (hnodup : (audit cfg m l arrivals).2.counted.Nodup) : NoRecount cfg m l arrivals := by
  induction arrivals generalizing m l with
  | nil => trivial
  | cons a arrivals ih =>
    refine ⟨fun hre => recounts_not_nodup ha h hre ?_, ih (overBudget_record ha h a) hnodup⟩
    exact hnodup.sublist (counted_suffix cfg arrivals _ _).sublist

/-- The ledger has an entry for each count. -/
theorem length_counted {cfg : Config} (ha : cfg.adaptive = true) (arrivals : List Arrival)
    {m : EventManager} {l : Ledger} (h : m.droppedStacks = l.counted.length) :
    (audit cfg m l arrivals).1.droppedStacks = (audit cfg m l arrivals).2.counted.length := by
  induction arrivals generalizing m l with
  | nil => exact h
  | cons a arrivals ih =>
    refine ih ?_
    rw [(ownCounts_eq ha a.env m a.event).2, Ledger.record]
    simp only [List.length_append, List.length_replicate]
    omega

theorem summed_audit {cfg : Config} (ha : cfg.adaptive = true) (arrivals : List Arrival)
    {m : EventManager} {l : Ledger} (h : m.tally.Summed) :
    (audit cfg m l arrivals).1.tally.Summed := by
  rw [audit_fst]
  exact @handleAll_induction cfg (fun m => m.tally.Summed)
    (fun env _ event h => summed_handle ha env event h) _ _ h

/-! ## The end of a run -/

/-- A process has the state that its entry shows. -/
theorem process_of_mem {m : EventManager} {p : Sigma fun _ : UInt32 => PidState}
    (h : p ∈ m.pids.entries) : m.process p.1 = p.2 :=
  process_eq_of_lookup (AList.mem_lookup_iff.mpr h)

theorem mem_remaining {m : EventManager} (htidy : Tidy m) {k : TraceKey} (h : k ∈ m.remaining) :
    m.events k ≠ [] := by
  obtain ⟨p, hp, hk⟩ := List.mem_flatMap.mp h
  obtain ⟨goid, hgoid, rfl⟩ := List.mem_map.mp hk
  have hevents := (htidy p.1).events goid
  rw [process_of_mem hp] at hevents
  have hne := hevents (AList.mem_keys.mpr hgoid)
  change (m.process p.1).events goid ≠ []
  rwa [process_of_mem hp]

theorem remaining_nodup (m : EventManager) : m.remaining.Nodup := by
  refine List.nodup_flatMap.mpr ⟨fun p _ => ?_, ?_⟩
  · exact p.2.goEvents.keys_nodup.map fun x y h => (Bpf.GoidKey.mk.inj h).2
  · have hkeys : m.pids.entries.Pairwise fun p q => p.1 ≠ q.1 :=
      List.pairwise_map.mp m.pids.nodupKeys
    refine hkeys.imp fun hne k hp hq => ?_
    obtain ⟨_, -, rfl⟩ := List.mem_map.mp hp
    obtain ⟨_, -, heq⟩ := List.mem_map.mp hq
    exact hne (Bpf.GoidKey.mk.inj heq).1.symm

/-- The cleanup counts an incomplete sample for each goroutine. -/
theorem tally_cleanup (cfg : Config) (ks : List TraceKey) (m : EventManager) :
    (ks.foldl (fun m k => dropStack cfg (countIncomplete m) k) m).tally =
      { m.tally with
        samples := m.tally.samples + ks.length
        incomplete := m.tally.incomplete + ks.length } := by
  induction ks generalizing m with
  | nil => rfl
  | cons k ks ih =>
    rw [List.foldl_cons, ih, tally_dropStack, List.length_cons]
    simp only [countIncomplete, tally, Tally.mk.injEq, and_true]
    omega

theorem tally_foldl {α : Type} {f : EventManager → α → EventManager}
    (h : ∀ m x, (f m x).tally = m.tally) (xs : List α) (m : EventManager) :
    (xs.foldl f m).tally = m.tally := by
  induction xs generalizing m with
  | nil => rfl
  | cons x xs ih => exact (ih _).trans (h m x)

/-- The counters after the cleanup. -/
theorem tally_printRemaining (cfg : Config) (m : EventManager) :
    (printRemaining cfg m).tally =
      { m.tally with
        samples := m.tally.samples + if cfg.aggregate then m.remaining.length else 0
        incomplete := m.tally.incomplete + if cfg.aggregate then m.remaining.length else 0 } := by
  unfold printRemaining
  cases cfg.aggregate with
  | true => exact tally_cleanup cfg m.remaining m
  | false =>
    refine tally_foldl (fun m p => ?_) _ m
    exact tally_foldl (fun m _ => tally_pidState cfg m p.1) _ m

theorem summed_printRemaining (cfg : Config) {m : EventManager} (h : m.tally.Summed) :
    (printRemaining cfg m).tally.Summed := by
  rw [tally_printRemaining]
  unfold Tally.Summed at h ⊢
  dsimp only
  omega

/-- The cleanup counts nothing that is in the ledger. -/
theorem Sound.close_nodup {cfg : Config} {m : EventManager} {l : Ledger} {done : List Arrival}
    (h : Sound done m l) (htidy : Tidy m) :
    ((l.close cfg m).counted ++ (l.close cfg m).aggregated).Nodup := by
  unfold Ledger.close
  split
  · rw [List.append_assoc, List.nodup_append']
    refine ⟨?_, h.nodup, ?_⟩
    · exact (remaining_nodup m).map fun x y heq => (Prod.mk.inj heq).1
    · intro s hs hold
      obtain ⟨k, hk, rfl⟩ := List.mem_map.mp hs
      exact mem_remaining htidy hk (h.empty _ hold rfl)
  · exact h.nodup

/-- What is counted once with the cleanup is counted once without it. -/
theorem nodup_of_close {cfg : Config} {m : EventManager} {l : Ledger}
    (h : CountedOnce (l.close cfg m)) : l.counted.Nodup := by
  refine h.1.sublist ?_
  unfold Ledger.close
  split
  · exact (List.suffix_append _ _).sublist
  · exact List.Sublist.refl _

theorem tidy_audit (cfg : Config) (arrivals : List Arrival) :
    Tidy (audit cfg {} {} arrivals).1 := by
  rw [audit_fst]
  refine @handleAll_induction cfg Tidy (fun env m event h => ?_) _ _ fun _ => ?_
  · exact (tidy_stepwise cfg env event).handle h
  · exact PidState.Tidy.empty 0

/-- Every discarded sample is counted once, and no aggregated one, if and only if no event of a
run recounts its sample. The counters add up in any case. -/
theorem counted_once_iff {cfg : Config} (ha : cfg.adaptive = true) {arrivals : List Arrival}
    (hp : FollowsProtocol arrivals) :
    let r := audit cfg {} {} arrivals
    r.1.tally.Summed ∧ (printRemaining cfg r.1).tally.Summed ∧
      (printRemaining cfg r.1).droppedStacks = (r.2.close cfg r.1).counted.length ∧
      (CountedOnce (r.2.close cfg r.1) ↔ NoRecount cfg {} {} arrivals) := by
  intro r
  have hsum : r.1.tally.Summed := summed_audit ha arrivals rfl
  refine ⟨hsum, summed_printRemaining cfg hsum, ?_, fun h => ?_, fun h => ?_⟩
  · have hlength : r.1.droppedStacks = r.2.counted.length := length_counted ha arrivals rfl
    have hclose := congrArg Tally.samples (tally_printRemaining cfg r.1)
    refine hclose.trans ?_
    dsimp only [tally]
    rw [hlength, Ledger.close]
    split
    · rw [List.length_append, List.length_map, Nat.add_comm]
    · rfl
  · exact noRecount_of_nodup ha arrivals (List.nil_subset _) (nodup_of_close h)
  · have hsound : Sound arrivals r.1 r.2 := audit_sound ha arrivals sound_empty hp h
    have hnodup := @Sound.close_nodup cfg r.1 r.2 arrivals hsound (tidy_audit cfg arrivals)
    rw [List.nodup_append'] at hnodup
    exact ⟨hnodup.1, fun s hs hmem => hnodup.2.2 hmem hs⟩

/-- A sample without its end, and the start of the next one. -/
def lostEnd : List Arrival :=
  [{ event := sampleStart 0, env := sampleEnv, sample := 0 },
    { event := sampleStart 0, env := sampleEnv, sample := 1 }]

theorem counted_once_lostEnd :
    FollowsProtocol lostEnd ∧ NoRecount (sampleConfig true) {} {} lostEnd ∧
      let r := audit (sampleConfig true) {} {} lostEnd
      r.1.tally.Summed ∧ (printRemaining (sampleConfig true) r.1).tally.Summed ∧
        (printRemaining (sampleConfig true) r.1).droppedStacks =
          (r.2.close (sampleConfig true) r.1).counted.length ∧
        (CountedOnce (r.2.close (sampleConfig true) r.1) ↔
          NoRecount (sampleConfig true) {} {} lostEnd) := by
  have hp : FollowsProtocol lostEnd := by
    unfold FollowsProtocol InOrder
    decide
  refine ⟨hp, ?_, counted_once_iff rfl hp⟩
  have hnone : (({} : Ledger).record (sampleConfig true) {}
      { event := sampleStart 0, env := sampleEnv, sample := 0 }).overBudget = [] := by
    with_unfolding_all rfl
  refine ⟨fun h => absurd h.1 List.not_mem_nil, fun h => ?_, trivial⟩
  have hmem := h.1
  rw [hnone] at hmem
  exact absurd hmem List.not_mem_nil

/-- A nested call of the sample, and the event that aborts it. -/
def sampleCall : GoftraceEvent :=
  { goid := 1, pid := 0, ip := 48, bp := 4064, sampleDenominator := 1, location := Bpf.entPoint }

def sampleAbort : GoftraceEvent := { sampleCall with traceFlags := Bpf.traceAbort }

/-- A sample with a budget of one event: its second event is rejected, its third aborts it. -/
def rejectedThenAborted : List Arrival :=
  [sampleStart 0, sampleCall, sampleAbort].map fun event =>
    { event := event, env := sampleEnv, sample := 0 }

/-- One sample that is counted twice. -/
theorem rejected_then_aborted :
    let cfg := { sampleConfig true with maxPendingEvents := 1 }
    let r := audit cfg {} {} rejectedThenAborted
    FollowsProtocol rejectedThenAborted ∧ cfg.adaptive = true ∧
      (∀ a ∈ rejectedThenAborted, a.id = ({ pid := 0, goid := 1 }, 0)) ∧
      r.1.droppedStacks = 2 ∧ ¬ CountedOnce (r.2.close cfg r.1) := by
  intro cfg r
  refine ⟨?_, rfl, by decide, ?_, ?_⟩
  · unfold FollowsProtocol InOrder
    decide
  · with_unfolding_all rfl
  · intro h
    have hcounted : r.2.counted = [({ pid := 0, goid := 1 }, 0), ({ pid := 0, goid := 1 }, 0)] := by
      with_unfolding_all rfl
    have hnodup := nodup_of_close h
    rw [hcounted] at hnodup
    exact absurd hnodup (by decide)

end GoFtrace.EventManager
