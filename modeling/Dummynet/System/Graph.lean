import Dummynet.System.Drain
import Dummynet.System.Sound

/-!
# The object graph

How the objects of dummynet refer to each other: flowsets are on the list of their scheduler or on
`fsu`, queues are in the table of their flowset and belong to an instance of its scheduler, and
instances are in the table of their scheduler.

## Main definitions

* `Memory`, `Lists`, `Insts`, `Queues`: the references, one kind after the other.
* `Graph F S L s`: the graph of the flowsets `F` and the schedulers `S`. The flowset `L` is on no
  list, as between its removal from a list and the end of `fsk_detach`.

## Main results

* `Graph.congr`: the graph only depends on the references.
* `Graph.setFsk`, `Graph.setSchk`, `Graph.setInst`: writes that keep the references.
* `Graph.callback`: a callback of a scheduler keeps the graph.
-/

namespace Dummynet

/-- The memory of the flowsets `F` and the schedulers `S`: other memory is zero, and addresses
from `brk` on are not in use. -/
structure Memory (F : Set FskPtr) (S : Set SchkPtr) (s : Dn) : Prop where
  brk_pos : 0 < s.brk
  fsk_lt : ∀ fp ∈ F, fp < s.brk
  schk_lt : ∀ sp ∈ S, sp < s.brk
  fsk_zero : ∀ fp, fp ∉ F → s.fsk fp = {}
  schk_zero : ∀ sp, sp ∉ S → s.schk sp = {}

/-- A flowset other than `L` is on exactly one list, the one of its scheduler or `fsu`. -/
structure Lists (F : Set FskPtr) (L : Option FskPtr) (s : Dn) : Prop where
  listed : ∀ o fp, fp ∈ s.fskList o ↔ fp ∈ F ∧ L ≠ some fp ∧ (s.fsk fp).sched = o
  list_nodup : ∀ o, (s.fskList o).Nodup

/-- The instances of a scheduler are in its table, have its algorithm and are sound. -/
structure Insts (s : Dn) : Prop where
  inst_lt : ∀ p ∈ s.sis, p < s.brk
  insts : ∀ sp p, p ∈ (s.schk sp).siht.list ↔ p ∈ s.sis ∧ (s.inst p).sched = sp
  insts_nodup : ∀ sp, (s.schk sp).siht.Nodup
  kind : ∀ p ∈ s.sis, (s.schk (s.inst p).sched).fp = some (s.inst p).kind
  si : ∀ p ∈ s.sis, (s.inst p).s.si = p
  sound : ∀ p ∈ s.sis, (s.inst p).kind.Sound (s.inst p).s

/-- The queues of a flowset are in its table, and belong to instances of its scheduler. -/
structure Queues (s : Dn) : Prop where
  queue_lt : ∀ p ∈ s.sis, ∀ q ∈ (s.inst p).s.live, q < s.brk
  queues : ∀ fp a, a ∈ (s.fsk fp).qht.list ↔
    a.si ∈ s.sis ∧ a.q ∈ (s.inst a.si).s.live ∧ (s.inst a.si).qfs a.q = some fp
  queues_nodup : ∀ fp, (s.fsk fp).qht.Nodup
  attached : ∀ p ∈ s.sis, ∀ q ∈ (s.inst p).s.live, ∃ fp,
    (s.inst p).qfs q = some fp ∧ (s.fsk fp).sched = some (s.inst p).sched
  par : ∀ p ∈ s.sis, ∀ q ∈ (s.inst p).s.live,
    (s.fsOf ((s.inst p).qfs q)).fs.par = ((s.inst p).s.queue q).fs.fs.par

/-- The graph of the flowsets `F` and the schedulers `S`. -/
structure Graph (F : Set FskPtr) (S : Set SchkPtr) (L : Option FskPtr) (s : Dn) : Prop
  extends Memory F S s, Lists F L s, Insts s, Queues s

/-- One instance in two states. -/
structure SchInst.Same (x y : SchInst) : Prop where
  kind : y.kind = x.kind
  sched : y.sched = x.sched
  si : y.s.si = x.s.si
  sound : x.kind.Sound x.s → y.kind.Sound y.s

/-- The references of an instance in two states. -/
structure SchInst.Refs (x y : SchInst) : Prop extends x.Same y where
  qfs : y.qfs = x.qfs
  live : y.s.live = x.s.live
  par : ∀ q ∈ x.s.live, (y.s.queue q).fs.fs.par = (x.s.queue q).fs.fs.par

theorem SchInst.Refs.refl (x : SchInst) : x.Refs x :=
  ⟨⟨rfl, rfl, rfl, id⟩, rfl, rfl, fun _ _ => rfl⟩

/-- The references of a flowset in two states. -/
structure Fsk.Refs (f g : Fsk) : Prop where
  sched : g.sched = f.sched
  qht : g.qht.list = f.qht.list
  nodup : f.qht.Nodup → g.qht.Nodup
  par : g.data.fs.par = f.data.fs.par

theorem Fsk.Refs.refl (f : Fsk) : f.Refs f := ⟨rfl, rfl, id, rfl⟩

variable {F : Set FskPtr} {S : Set SchkPtr} {L : Option FskPtr} {s t : Dn} {p : SiPtr}
  {fp : FskPtr} {sp : SchkPtr} {a : QAddr}

theorem fsOf_par (h : ∀ fp, (s.fsk fp).Refs (t.fsk fp)) (o : Option FskPtr) :
    (t.fsOf o).fs.par = (s.fsOf o).fs.par := by
  cases o with
  | none => rfl
  | some fp => exact (h fp).par

theorem Lists.congr (h : Lists F L s) (hlist : ∀ o, t.fskList o = s.fskList o)
    (hsched : ∀ fp, (t.fsk fp).sched = (s.fsk fp).sched) : Lists F L t where
  listed o fp := by rw [hlist, h.listed, hsched]
  list_nodup o := by
    rw [hlist]
    exact h.list_nodup o

theorem Insts.congr (h : Insts s) (hbrk : s.brk ≤ t.brk) (hsis : t.sis = s.sis)
    (hsiht : ∀ sp, (t.schk sp).siht.list = (s.schk sp).siht.list)
    (hnodup : ∀ sp, (t.schk sp).siht.Nodup)
    (hfp : ∀ p ∈ s.sis, (t.schk (s.inst p).sched).fp = (s.schk (s.inst p).sched).fp)
    (hinst : ∀ p ∈ s.sis, (s.inst p).Same (t.inst p)) : Insts t where
  inst_lt p hp := (h.inst_lt p (hsis ▸ hp)).trans_le hbrk
  insts sp p := by
    rw [hsiht, h.insts, hsis]
    exact and_congr_right fun hp => by rw [(hinst p hp).sched]
  insts_nodup := hnodup
  kind p hp := by
    rw [hsis] at hp
    rw [(hinst p hp).sched, hfp p hp, h.kind p hp, (hinst p hp).kind]
  si p hp := by
    rw [hsis] at hp
    rw [(hinst p hp).si, h.si p hp]
  sound p hp := (hinst p (hsis ▸ hp)).sound (h.sound p (hsis ▸ hp))

theorem Queues.congr (h : Queues s) (hbrk : s.brk ≤ t.brk) (hsis : t.sis = s.sis)
    (hfsk : ∀ fp, (s.fsk fp).Refs (t.fsk fp)) (hinst : ∀ p ∈ s.sis, (s.inst p).Refs (t.inst p)) :
    Queues t where
  queue_lt p hp q hq := by
    rw [hsis] at hp
    rw [(hinst p hp).live] at hq
    exact (h.queue_lt p hp q hq).trans_le hbrk
  queues fp a := by
    rw [(hfsk fp).qht, h.queues, hsis]
    exact and_congr_right fun hp => by rw [(hinst _ hp).live, (hinst _ hp).qfs]
  queues_nodup fp := (hfsk fp).nodup (h.queues_nodup fp)
  attached p hp q hq := by
    rw [hsis] at hp
    rw [(hinst p hp).live] at hq
    obtain ⟨fp, hqfs, hsched⟩ := h.attached p hp q hq
    exact ⟨fp, by rw [(hinst p hp).qfs, hqfs], by rw [(hfsk fp).sched, hsched, (hinst p hp).sched]⟩
  par p hp q hq := by
    rw [hsis] at hp
    rw [(hinst p hp).live] at hq
    rw [(hinst p hp).qfs, (hinst p hp).par q hq, fsOf_par hfsk, h.par p hp q hq]

/-- The graph only depends on the references. -/
theorem Graph.congr (hg : Graph F S L s) (hbrk : s.brk ≤ t.brk) (hsis : t.sis = s.sis)
    (hlist : ∀ o, t.fskList o = s.fskList o) (hfsk : ∀ fp, (s.fsk fp).Refs (t.fsk fp))
    (hfz : ∀ fp, fp ∉ F → t.fsk fp = {}) (hsz : ∀ sp, sp ∉ S → t.schk sp = {})
    (hsiht : ∀ sp, (t.schk sp).siht = (s.schk sp).siht)
    (hfp : ∀ p ∈ s.sis, (t.schk (s.inst p).sched).fp = (s.schk (s.inst p).sched).fp)
    (hinst : ∀ p ∈ s.sis, (s.inst p).Refs (t.inst p)) : Graph F S L t where
  toMemory := ⟨hg.brk_pos.trans_le hbrk, fun fp hfp => (hg.fsk_lt fp hfp).trans_le hbrk,
    fun sp hsp => (hg.schk_lt sp hsp).trans_le hbrk, hfz, hsz⟩
  toLists := hg.toLists.congr hlist fun fp => (hfsk fp).sched
  toInsts := by
    refine hg.toInsts.congr hbrk hsis (fun sp => by rw [hsiht]) (fun sp => ?_) hfp
      fun p hp => (hinst p hp).toSame
    rw [hsiht]
    exact hg.insts_nodup sp
  toQueues := hg.toQueues.congr hbrk hsis hfsk hinst

/-- What is not part of the memory of the objects may change. -/
theorem Graph.of_eq (hg : Graph F S L s) (hfsk : t.fsk = s.fsk) (hschk : t.schk = s.schk)
    (hinst : t.inst = s.inst) (hsis : t.sis = s.sis) (hfsu : t.fsu = s.fsu) (hbrk : s.brk ≤ t.brk) :
    Graph F S L t := by
  refine hg.congr hbrk hsis (fun o => ?_) (fun fp => ?_) (fun fp hfp => ?_) (fun sp hsp => ?_)
    (fun sp => ?_) (fun p _ => ?_) fun p _ => ?_
  · cases o with
    | none => exact hfsu
    | some sp => rw [Dn.fskList, hschk, Dn.fskList]
  · rw [hfsk]
    exact .refl _
  · rw [hfsk]
    exact hg.fsk_zero fp hfp
  · rw [hschk]
    exact hg.schk_zero sp hsp
  · rw [hschk]
  · rw [hschk]
  · rw [hinst]
    exact .refl _

/-- A write to a flowset that keeps its references. -/
theorem Graph.setFsk {f : Fsk} (hg : Graph F S L s) (hmem : fp ∈ F) (hf : (s.fsk fp).Refs f) :
    Graph F S L (s.setFsk fp f) := by
  refine hg.congr le_rfl rfl (fun o => ?_) (fun fp' => ?_) (fun fp' hfp' => ?_) hg.schk_zero
    (fun _ => rfl) (fun _ _ => rfl) fun p _ => .refl _
  · cases o <;> rfl
  · by_cases hne : fp' = fp
    · subst hne
      simpa [Dn.setFsk] using hf
    · simpa [Dn.setFsk, hne] using Fsk.Refs.refl _
  · have hne : fp' ≠ fp := fun h => hfp' (h ▸ hmem)
    simpa [Dn.setFsk, hne] using hg.fsk_zero fp' hfp'

/-- A write to a scheduler that keeps its references. -/
theorem Graph.setSchk {x : Schk} (hg : Graph F S L s) (hmem : sp ∈ S)
    (hlist : x.fskList = (s.schk sp).fskList) (hsiht : x.siht = (s.schk sp).siht)
    (hfp : (s.schk sp).siht.list ≠ [] → x.fp = (s.schk sp).fp) : Graph F S L (s.setSchk sp x) := by
  refine hg.congr le_rfl rfl (fun o => ?_) (fun _ => .refl _) hg.fsk_zero (fun sp' hsp' => ?_)
    (fun sp' => ?_) (fun p hp => ?_) fun p _ => .refl _
  · cases o with
    | none => rfl
    | some sp' =>
      by_cases hne : sp' = sp
      · subst hne
        simpa [Dn.setSchk, Dn.fskList] using hlist
      · simp [Dn.setSchk, Dn.fskList, hne]
  · have hne : sp' ≠ sp := fun h => hsp' (h ▸ hmem)
    simpa [Dn.setSchk, hne] using hg.schk_zero sp' hsp'
  · by_cases hne : sp' = sp
    · subst hne
      simpa [Dn.setSchk] using hsiht
    · simp [Dn.setSchk, hne]
  · by_cases hne : (s.inst p).sched = sp
    · have hmem : p ∈ (s.schk sp).siht.list := (hg.insts sp p).2 ⟨hp, hne⟩
      simpa [Dn.setSchk, hne] using hfp (List.ne_nil_of_mem hmem)
    · simp [Dn.setSchk, hne]

/-- A write to an instance that keeps its references. -/
theorem Graph.setInst {x : SchInst} (hg : Graph F S L s) (hx : p ∈ s.sis → (s.inst p).Refs x) :
    Graph F S L (s.setInst p x) := by
  refine hg.congr le_rfl rfl (fun o => ?_) (fun _ => .refl _) hg.fsk_zero hg.schk_zero
    (fun _ => rfl) (fun _ _ => rfl) fun p' hp' => ?_
  · cases o <;> rfl
  · by_cases hne : p' = p
    · subst hne
      simpa [Dn.setInst] using hx hp'
    · simpa [Dn.setInst, hne] using SchInst.Refs.refl _

/-! ### Callbacks -/

/-- The flowsets of the queues, as the scheduler sees them, have the parameters with which the
queues were made. -/
theorem Graph.load_par (hg : Graph F S L s) (hp : p ∈ s.sis) {q : QPtr}
    (hq : q ∈ (s.inst p).s.live) (i : Fin 4) :
    (s.load (s.inst p)).par q i = (s.inst p).s.par q i :=
  congrFun (hg.par p hp q hq) i

/-- The instance that a callback sees is sound. -/
theorem Graph.sound_load (hg : Graph F S L s) (hp : p ∈ s.sis) :
    (s.inst p).kind.Sound (s.load (s.inst p)) := by
  have h := hg.sound p hp
  refine ⟨?_, h.tidy, h.owned, h.counted, h.count, h.single⟩
  exact (s.inst p).kind.lawful.ok_congr h.ok rfl rfl rfl fun q hq =>
    funext fun i => hg.load_par hp hq i

/-- The queue `q` gets its flowset and its flow id. -/
def SchInst.name (x : SchInst) (q : QPtr) (fp : FskPtr) (id : FlowId) : SchInst :=
  { x with
    qfs := Function.update x.qfs q (some fp)
    qfid := Function.update x.qfid q id }

/-- The instance is also sound when a new queue has been named. -/
theorem Graph.sound_name {q : QPtr} {id : FlowId} (hg : Graph F S L s) (hp : p ∈ s.sis)
    (hq : q ∉ (s.inst p).s.live) :
    (s.inst p).kind.Sound (s.load ((s.inst p).name q fp id)) := by
  have h := hg.sound p hp
  refine ⟨?_, h.tidy, h.owned, h.counted, h.count, h.single⟩
  refine (s.inst p).kind.lawful.ok_congr h.ok rfl rfl rfl fun q' hq' => funext fun i => ?_
  have hne : q' ≠ q := fun he => hq (he ▸ hq')
  change (s.fsOf (Function.update (s.inst p).qfs q (some fp) q')).fs.par i = _
  rw [Function.update_of_ne hne]
  exact hg.load_par hp hq' i

/-- A callback on an instance. -/
theorem callback_spec {β : Type} {b : β}
    {f : (k : SchedType) → Inst k.Priv k.Ext → Option (β × Inst k.Priv k.Ext)}
    (h : s.callback p f = some (b, t)) :
    ∃ u, f (s.inst p).kind (s.load (s.inst p)) = some (b, u) ∧ t = s.store p (s.inst p) u := by
  obtain ⟨⟨b', u⟩, hu, he⟩ := Option.map_eq_some_iff.1 h
  obtain ⟨rfl, rfl⟩ := Prod.mk.inj he
  exact ⟨u, hu, rfl⟩

theorem Dn.setInst_setInst (s : Dn) (p : SiPtr) (x y : SchInst) :
    (s.setInst p x).setInst p y = s.setInst p y := by
  simp only [Dn.setInst, Function.update_idem]

theorem Dn.setInst_inst (s : Dn) (p : SiPtr) (x : SchInst) : (s.setInst p x).inst p = x :=
  Function.update_self ..

theorem Dn.setInst_inst_of_ne (s : Dn) {p p' : SiPtr} (x : SchInst) (h : p' ≠ p) :
    (s.setInst p x).inst p' = s.inst p' :=
  Function.update_of_ne h ..

theorem Dn.store_inst (s : Dn) (p : SiPtr) (x : SchInst) (r : Inst x.kind.Priv x.kind.Ext) :
    (s.store p x r).inst p = { x with s := r } :=
  Function.update_self ..

theorem Dn.store_inst_of_ne (s : Dn) {p p' : SiPtr} (x : SchInst)
    (r : Inst x.kind.Priv x.kind.Ext) (h : p' ≠ p) : (s.store p x r).inst p' = s.inst p' :=
  Function.update_of_ne h ..

theorem Dn.setFsk_setFsk (s : Dn) (fp : FskPtr) (f g : Fsk) :
    (s.setFsk fp f).setFsk fp g = s.setFsk fp g := by
  simp only [Dn.setFsk, Function.update_idem]

/-- A callback on an instance that was just written. -/
theorem callback_setInst_spec {β : Type} {b : β} {x : SchInst}
    {f : (k : SchedType) → Inst k.Priv k.Ext → Option (β × Inst k.Priv k.Ext)}
    (h : (s.setInst p x).callback p f = some (b, t)) :
    ∃ u, f x.kind (s.load x) = some (b, u) ∧ t = s.store p x u := by
  have hx : (s.setInst p x).inst p = x := Function.update_self ..
  rw [Dn.callback, hx] at h
  obtain ⟨⟨b', u⟩, hu, he⟩ := Option.map_eq_some_iff.1 h
  obtain ⟨rfl, rfl⟩ := Prod.mk.inj he
  refine ⟨u, hu, ?_⟩
  rw [Dn.store, Dn.setInst_setInst]
  rfl

/-- A callback that keeps the instance sound, its queues and their flowsets keeps the graph. -/
theorem Graph.callback {β : Type} {b : β}
    {f : (k : SchedType) → Inst k.Priv k.Ext → Option (β × Inst k.Priv k.Ext)}
    (hg : Graph F S L s) (hp : p ∈ s.sis) (h : s.callback p f = some (b, t))
    (hf : ∀ u, f _ (s.load (s.inst p)) = some (b, u) →
      (s.inst p).kind.Sound (s.load (s.inst p)) → (s.inst p).kind.Sound u ∧
        u.si = (s.load (s.inst p)).si ∧ u.live = (s.load (s.inst p)).live ∧
        ∀ q, (u.queue q).fs = ((s.load (s.inst p)).queue q).fs) :
    Graph F S L t := by
  obtain ⟨u, hu, rfl⟩ := callback_spec h
  obtain ⟨hsound, hsi, hlive, hfs⟩ := hf u hu (hg.sound_load hp)
  have hrefs : (s.inst p).Refs { s.inst p with s := u } := by
    refine ⟨⟨rfl, rfl, hsi, fun _ => hsound⟩, rfl, hlive, fun q hq => ?_⟩
    change (u.queue q).fs.fs.par = _
    rw [hfs q]
    exact hg.par p hp q hq
  exact (hg.setInst fun _ => hrefs).of_eq rfl rfl rfl rfl rfl le_rfl

/-- The callback `enqueue` keeps the graph. -/
theorem Graph.enqueue {q : QPtr} {m : Mbuf} {r : Draws} {b : Bool} (hg : Graph F S L s)
    (hp : p ∈ s.sis) (hq : q ∈ (s.inst p).queues) (hm : ¬ (s.inst p).s.isHead q m)
    (h : s.callback p (fun k t => k.desc.enqueue t q m r) = some (b, t)) : Graph F S L t := by
  refine hg.callback hp h fun u hu hsound => ?_
  obtain ⟨q', -, -, -, hmoved⟩ := enqueue_moved hsound.ok hq hm hu
  exact ⟨hsound.enqueue hq hm hu, hmoved.inst, hmoved.live, hmoved.fs⟩

/-- The callback `dequeue` keeps the graph. -/
theorem Graph.dequeue {o : Option Mbuf} (hg : Graph F S L s) (hp : p ∈ s.sis)
    (h : s.callback p (fun k t => k.desc.dequeue t) = some (o, t)) : Graph F S L t := by
  refine hg.callback hp h fun u hu hsound => ?_
  rcases dequeue_moved hsound.ok hu with ⟨-, hshell⟩ | ⟨q, m, rest, -, -, -, hmoved⟩
  · refine ⟨hsound.dequeue hu, shell_si hshell, shell_live hshell, fun q => ?_⟩
    rw [shell_queue hshell]
  · exact ⟨hsound.dequeue hu, hmoved.inst, hmoved.live, hmoved.fs⟩

/-! ### Instances come and go -/

/-- The memory after a write to a scheduler. -/
theorem Memory.setSchk {x : Schk} (h : Memory F S s) (hsp : sp ∈ S) (hbrk : s.brk ≤ t.brk)
    (hfsk : t.fsk = s.fsk) (hschk : t.schk = Function.update s.schk sp x) : Memory F S t where
  brk_pos := h.brk_pos.trans_le hbrk
  fsk_lt fp hfp := (h.fsk_lt fp hfp).trans_le hbrk
  schk_lt sp hsp := (h.schk_lt sp hsp).trans_le hbrk
  fsk_zero := by
    rw [hfsk]
    exact h.fsk_zero
  schk_zero sp' hsp' := by
    have hne : sp' ≠ sp := fun he => hsp' (he ▸ hsp)
    rw [hschk, Function.update_of_ne hne]
    exact h.schk_zero sp' hsp'

/-- The lists after a change to a table of instances. -/
theorem Lists.setSiht {siht : Objs SiPtr} (h : Lists F L s) (hfsk : t.fsk = s.fsk)
    (hfsu : t.fsu = s.fsu)
    (hschk : t.schk = Function.update s.schk sp { s.schk sp with siht := siht }) : Lists F L t := by
  refine h.congr (fun o => ?_) fun fp => by rw [hfsk]
  rcases o with _ | sp'
  · exact hfsu
  · rcases eq_or_ne sp' sp with rfl | hne
    · simp [Dn.fskList, hschk]
    · simp [Dn.fskList, hschk, hne]

section Inst

variable {siht : Objs SiPtr} (hfsk : t.fsk = s.fsk) (hfsu : t.fsu = s.fsu)
  (hbrk : s.brk ≤ t.brk) (hother : ∀ p', p' ≠ p → t.inst p' = s.inst p')
  (hschk : t.schk = Function.update s.schk sp { s.schk sp with siht := siht })

include hbrk hother hschk

/-- A new instance in the table of its scheduler. -/
theorem Insts.add {x : SchInst} (h : Insts s) (hfp : (s.schk sp).fp = some x.kind)
    (hp : p ∉ s.sis) (hlt : p < t.brk) (hsched : x.sched = sp) (hsi : x.s.si = p)
    (hsound : x.kind.Sound x.s)
    (hsiht : ∀ p', p' ∈ siht.list ↔ p' = p ∨ p' ∈ (s.schk sp).siht.list) (hnodup : siht.Nodup)
    (hsis : t.sis = insert p s.sis) (hself : t.inst p = x) : Insts t := by
  have hcases : ∀ p', p' ∈ t.sis → p' = p ∨ p' ∈ s.sis ∧ p' ≠ p := fun p' hp' => by
    rw [hsis, Finset.mem_insert] at hp'
    exact hp'.imp_right fun h => ⟨h, fun he => hp (he ▸ h)⟩
  refine ⟨fun p' hp' => ?_, fun sp' p' => ?_, fun sp' => ?_, fun p' hp' => ?_, fun p' hp' => ?_,
    fun p' hp' => ?_⟩
  · rcases hcases p' hp' with rfl | ⟨hmem, -⟩
    · exact hlt
    · exact (h.inst_lt p' hmem).trans_le hbrk
  · rw [hsis, Finset.mem_insert, hschk]
    rcases eq_or_ne sp' sp with rfl | hne
    · rw [Function.update_self, hsiht, h.insts]
      rcases eq_or_ne p' p with rfl | hpne
      · simp [hself, hsched]
      · simp [hpne, hother p' hpne]
    · rw [Function.update_of_ne hne, h.insts]
      rcases eq_or_ne p' p with rfl | hpne
      · simp [hself, hsched, hne.symm, hp]
      · simp [hpne, hother p' hpne]
  · rcases eq_or_ne sp' sp with rfl | hne
    · rw [hschk, Function.update_self]
      exact hnodup
    · rw [hschk, Function.update_of_ne hne]
      exact h.insts_nodup sp'
  · have hfpt : ∀ sp', (t.schk sp').fp = (s.schk sp').fp := fun sp' => by
      rcases eq_or_ne sp' sp with rfl | hne
      · rw [hschk, Function.update_self]
      · rw [hschk, Function.update_of_ne hne]
    rw [hfpt]
    rcases hcases p' hp' with rfl | ⟨hmem, hne⟩
    · rw [hself, hsched, hfp]
    · rw [hother p' hne, h.kind p' hmem]
  · rcases hcases p' hp' with rfl | ⟨hmem, hne⟩
    · rw [hself, hsi]
    · rw [hother p' hne, h.si p' hmem]
  · rcases hcases p' hp' with rfl | ⟨hmem, hne⟩
    · rw [hself]
      exact hsound
    · rw [hother p' hne]
      exact h.sound p' hmem

/-- An instance leaves the table of its scheduler. -/
theorem Insts.drop (h : Insts s) (hsched : (s.inst p).sched = sp)
    (hsiht : ∀ p', p' ∈ siht.list ↔ p' ∈ (s.schk sp).siht.list ∧ p' ≠ p) (hnodup : siht.Nodup)
    (hsis : t.sis = s.sis.erase p) : Insts t := by
  have hcases : ∀ p', p' ∈ t.sis → p' ∈ s.sis ∧ t.inst p' = s.inst p' := fun p' hp' => by
    rw [hsis, Finset.mem_erase] at hp'
    exact ⟨hp'.2, hother p' hp'.1⟩
  refine ⟨fun p' hp' => ?_, fun sp' p' => ?_, fun sp' => ?_, fun p' hp' => ?_, fun p' hp' => ?_,
    fun p' hp' => ?_⟩
  · exact (h.inst_lt p' (hcases p' hp').1).trans_le hbrk
  · rw [hsis, Finset.mem_erase, hschk]
    rcases eq_or_ne p' p with rfl | hpne
    · rcases eq_or_ne sp' sp with rfl | hne
      · simp [hsiht]
      · simp [hne, h.insts, hsched, hne.symm]
    · rcases eq_or_ne sp' sp with rfl | hne
      · simp [hsiht, hpne, hother p' hpne, h.insts]
      · simp [hne, hpne, hother p' hpne, h.insts]
  · rcases eq_or_ne sp' sp with rfl | hne
    · rw [hschk, Function.update_self]
      exact hnodup
    · rw [hschk, Function.update_of_ne hne]
      exact h.insts_nodup sp'
  · obtain ⟨hmem, heq⟩ := hcases p' hp'
    rw [heq, ← h.kind p' hmem, hschk]
    rcases eq_or_ne (s.inst p').sched sp with he | hne
    · rw [he, Function.update_self]
    · rw [Function.update_of_ne hne]
  · obtain ⟨hmem, heq⟩ := hcases p' hp'
    rw [heq, h.si p' hmem]
  · obtain ⟨hmem, heq⟩ := hcases p' hp'
    rw [heq]
    exact h.sound p' hmem

omit hschk

include hfsk

/-- The queues when an instance without queues comes or goes. -/
theorem Queues.setInst (h : Queues s) (hp : p ∈ s.sis → (s.inst p).s.live = ∅)
    (hp' : p ∈ t.sis → (t.inst p).s.live = ∅) (hsis : ∀ p', p' ≠ p → (p' ∈ t.sis ↔ p' ∈ s.sis)) :
    Queues t := by
  have hfsOf : ∀ o, t.fsOf o = s.fsOf o := fun o => by rw [Dn.fsOf, hfsk, Dn.fsOf]
  have hcases : ∀ {p' q}, p' ∈ t.sis → q ∈ (t.inst p').s.live →
      p' ∈ s.sis ∧ t.inst p' = s.inst p' := fun {p' q} hmem hq => by
    have hne : p' ≠ p := by
      rintro rfl
      rw [hp' hmem] at hq
      exact absurd hq (Finset.notMem_empty q)
    exact ⟨(hsis p' hne).1 hmem, hother p' hne⟩
  refine ⟨fun p' hmem q hq => ?_, fun fp a => ?_, ?_, fun p' hmem q hq => ?_,
    fun p' hmem q hq => ?_⟩
  · obtain ⟨hold, heq⟩ := hcases hmem hq
    exact (h.queue_lt p' hold q (heq ▸ hq)).trans_le hbrk
  · rw [hfsk, h.queues]
    rcases eq_or_ne a.si p with he | hne
    · rw [he]
      constructor
      · rintro ⟨hmem, hq, -⟩
        rw [hp hmem] at hq
        exact absurd hq (Finset.notMem_empty _)
      · rintro ⟨hmem, hq, -⟩
        rw [hp' hmem] at hq
        exact absurd hq (Finset.notMem_empty _)
    · rw [hsis a.si hne, hother a.si hne]
  · rw [hfsk]
    exact h.queues_nodup
  · obtain ⟨hold, heq⟩ := hcases hmem hq
    rw [heq] at hq ⊢
    rw [hfsk]
    exact h.attached p' hold q hq
  · obtain ⟨hold, heq⟩ := hcases hmem hq
    rw [heq] at hq ⊢
    rw [hfsOf]
    exact h.par p' hold q hq

end Inst

/-- **A new instance.** -/
theorem Graph.addInst {x : SchInst} {siht : Objs SiPtr} (hg : Graph F S L s)
    (hfp : (s.schk sp).fp = some x.kind) (hp : p ∉ s.sis) (hlt : p < t.brk)
    (hsched : x.sched = sp) (hsi : x.s.si = p) (hlive : x.s.live = ∅) (hsound : x.kind.Sound x.s)
    (hsiht : ∀ p', p' ∈ siht.list ↔ p' = p ∨ p' ∈ (s.schk sp).siht.list) (hnodup : siht.Nodup)
    (hfsk : t.fsk = s.fsk) (hfsu : t.fsu = s.fsu) (hbrk : s.brk ≤ t.brk)
    (hsis : t.sis = insert p s.sis) (hself : t.inst p = x)
    (hother : ∀ p', p' ≠ p → t.inst p' = s.inst p')
    (hschk : t.schk = Function.update s.schk sp { s.schk sp with siht := siht }) :
    Graph F S L t where
  toMemory := by
    have hsp : sp ∈ S := by
      by_contra hsp
      rw [hg.schk_zero sp hsp] at hfp
      exact absurd hfp (by simp)
    exact hg.toMemory.setSchk hsp hbrk hfsk hschk
  toLists := hg.toLists.setSiht hfsk hfsu hschk
  toInsts := hg.toInsts.add hbrk hother hschk hfp hp hlt hsched hsi hsound hsiht hnodup hsis hself
  toQueues := by
    refine hg.toQueues.setInst hfsk hbrk hother (fun h => absurd h hp) (fun _ => ?_) fun p' hne => ?_
    · rw [hself, hlive]
    · rw [hsis, Finset.mem_insert, or_iff_right hne]

/-- **An instance without queues goes.** -/
theorem Graph.dropInst {siht : Objs SiPtr} (hg : Graph F S L s) (hp : p ∈ s.sis)
    (hsched : (s.inst p).sched = sp) (hlive : (s.inst p).s.live = ∅)
    (hsiht : ∀ p', p' ∈ siht.list ↔ p' ∈ (s.schk sp).siht.list ∧ p' ≠ p) (hnodup : siht.Nodup)
    (hfsk : t.fsk = s.fsk) (hfsu : t.fsu = s.fsu) (hbrk : s.brk ≤ t.brk)
    (hsis : t.sis = s.sis.erase p) (hother : ∀ p', p' ≠ p → t.inst p' = s.inst p')
    (hschk : t.schk = Function.update s.schk sp { s.schk sp with siht := siht }) :
    Graph F S L t where
  toMemory := by
    have hsp : sp ∈ S := by
      by_contra hsp
      have hkind := hg.kind p hp
      rw [hsched, hg.schk_zero sp hsp] at hkind
      exact absurd hkind (by simp)
    exact hg.toMemory.setSchk hsp hbrk hfsk hschk
  toLists := hg.toLists.setSiht hfsk hfsu hschk
  toInsts := hg.toInsts.drop hbrk hother hschk hsched hsiht hnodup hsis
  toQueues := by
    refine hg.toQueues.setInst hfsk hbrk hother (fun _ => hlive) (fun h => ?_) fun p' hne => ?_
    · rw [hsis] at h
      exact absurd rfl (Finset.ne_of_mem_erase h)
    · rw [hsis, Finset.mem_erase, and_iff_right hne]

/-! ### Queues come and go -/

section Queue

variable {q : QPtr} {qht : Objs QAddr} {x : SchInst} (hbrk : s.brk ≤ t.brk)
  (hsis : t.sis = s.sis) (hfsu : t.fsu = s.fsu) (hschk : t.schk = s.schk)
  (hfsk : t.fsk = Function.update s.fsk fp { s.fsk fp with qht := qht })
  (hself : t.inst p = x) (hother : ∀ p', p' ≠ p → t.inst p' = s.inst p')

include hbrk hsis hfsu hschk hfsk hself hother

/-- A change in the queues of an instance and in the table of a flowset keeps the rest. -/
theorem Graph.of_queues (hg : Graph F S L s) (hfp : fp ∈ F) (hsame : (s.inst p).Same x)
    (hq : Queues t) : Graph F S L t where
  toMemory := by
    refine ⟨hg.brk_pos.trans_le hbrk, fun fp h => (hg.fsk_lt fp h).trans_le hbrk,
      fun sp h => (hg.schk_lt sp h).trans_le hbrk, fun fp' hfp' => ?_, ?_⟩
    · have hne : fp' ≠ fp := fun he => hfp' (he ▸ hfp)
      rw [hfsk, Function.update_of_ne hne]
      exact hg.fsk_zero fp' hfp'
    · rw [hschk]
      exact hg.schk_zero
  toLists := by
    refine hg.toLists.congr (fun o => ?_) fun fp' => ?_
    · rcases o with _ | sp
      · exact hfsu
      · rw [Dn.fskList, hschk, Dn.fskList]
    · rcases eq_or_ne fp' fp with rfl | hne
      · rw [hfsk, Function.update_self]
      · rw [hfsk, Function.update_of_ne hne]
  toInsts := by
    refine hg.toInsts.congr hbrk hsis (fun sp => by rw [hschk]) (hschk ▸ hg.insts_nodup)
      (fun p _ => by rw [hschk]) fun p' _ => ?_
    rcases eq_or_ne p' p with rfl | hne
    · rw [hself]
      exact hsame
    · rw [hother p' hne]
      exact (SchInst.Refs.refl _).toSame
  toQueues := hq

/-- **A new queue** of the flowset `fp`. -/
theorem Graph.addQueue (hg : Graph F S L s) (hp : p ∈ s.sis) (hq : q ∉ (s.inst p).s.live)
    (hlt : q < t.brk) (hsched : (s.fsk fp).sched = some (s.inst p).sched)
    (hsame : (s.inst p).Same x) (hlive : x.s.live = insert q (s.inst p).s.live)
    (hqfs : x.qfs = Function.update (s.inst p).qfs q (some fp))
    (hpar : (x.s.queue q).fs.fs.par = (s.fsk fp).data.fs.par)
    (hpars : ∀ q' ∈ (s.inst p).s.live,
      (x.s.queue q').fs.fs.par = ((s.inst p).s.queue q').fs.fs.par)
    (hqht : ∀ a, a ∈ qht.list ↔ a = ⟨p, q⟩ ∨ a ∈ (s.fsk fp).qht.list) (hnodup : qht.Nodup) :
    Graph F S L t := by
  have hfp : fp ∈ F := by
    by_contra hfp
    rw [hg.fsk_zero fp hfp] at hsched
    exact absurd hsched (by simp)
  have hfsOf : ∀ o, (t.fsOf o).fs.par = (s.fsOf o).fs.par := fun o => by
    rcases o with _ | fp'
    · rfl
    · rcases eq_or_ne fp' fp with rfl | hne
      · simp [Dn.fsOf, hfsk]
      · simp [Dn.fsOf, hfsk, hne]
  have hscheds : ∀ fp', (t.fsk fp').sched = (s.fsk fp').sched := fun fp' => by
    rcases eq_or_ne fp' fp with rfl | hne
    · rw [hfsk, Function.update_self]
    · rw [hfsk, Function.update_of_ne hne]
  have hcases : ∀ {p' q'}, p' ∈ s.sis → q' ∈ (t.inst p').s.live → p' = p ∧ q' = q ∨
      q' ∈ (s.inst p').s.live ∧ (t.inst p').qfs q' = (s.inst p').qfs q' ∧
        ((t.inst p').s.queue q').fs.fs.par = ((s.inst p').s.queue q').fs.fs.par :=
    fun {p' q'} _ hq' => by
      rcases eq_or_ne p' p with rfl | hne
      · rw [hself, hlive, Finset.mem_insert] at hq'
        refine hq'.imp (⟨rfl, ·⟩) fun hmem => ?_
        have hqne : q' ≠ q := fun he => hq (he ▸ hmem)
        rw [hself, hqfs, Function.update_of_ne hqne]
        exact ⟨hmem, rfl, hpars q' hmem⟩
      · rw [hother p' hne] at hq' ⊢
        exact .inr ⟨hq', rfl, rfl⟩
  have hinst : ∀ p', (t.inst p').sched = (s.inst p').sched := fun p' => by
    rcases eq_or_ne p' p with rfl | hne
    · rw [hself, hsame.sched]
    · rw [hother p' hne]
  refine hg.of_queues hbrk hsis hfsu hschk hfsk hself hother hfp hsame
    ⟨fun p' hp' q' hq' => ?_, fun fp' a => ?_, fun fp' => ?_, fun p' hp' q' hq' => ?_,
      fun p' hp' q' hq' => ?_⟩
  · rw [hsis] at hp'
    rcases hcases hp' hq' with ⟨-, rfl⟩ | ⟨hmem, -⟩
    · exact hlt
    · exact (hg.queue_lt p' hp' q' hmem).trans_le hbrk
  · have hmem : ∀ a : QAddr, a ∈ (t.fsk fp').qht.list ↔
        fp' = fp ∧ a = ⟨p, q⟩ ∨ a ∈ (s.fsk fp').qht.list := fun a => by
      rcases eq_or_ne fp' fp with rfl | hne
      · simp [hfsk, hqht]
      · simp [hfsk, hne]
    rw [hmem, hg.queues, hsis]
    obtain ⟨p', q'⟩ := a
    rcases eq_or_ne p' p with rfl | hne
    · rw [hself, hlive, hqfs]
      rcases eq_or_ne q' q with rfl | hqne
      · simp [hq, hp, eq_comm]
      · simp [hqne]
    · rw [hother p' hne]
      simp [hne]
  · rcases eq_or_ne fp' fp with rfl | hne
    · rw [hfsk, Function.update_self]
      exact hnodup
    · rw [hfsk, Function.update_of_ne hne]
      exact hg.queues_nodup fp'
  · rw [hsis] at hp'
    rcases hcases hp' hq' with ⟨rfl, rfl⟩ | ⟨hmem, heq, -⟩
    · exact ⟨fp, by rw [hself, hqfs, Function.update_self], by rw [hscheds, hsched, hinst]⟩
    · obtain ⟨fp', hfp', hs⟩ := hg.attached p' hp' q' hmem
      exact ⟨fp', by rw [heq, hfp'], by rw [hscheds, hs, hinst]⟩
  · rw [hsis] at hp'
    rw [hfsOf]
    rcases hcases hp' hq' with ⟨rfl, rfl⟩ | ⟨hmem, heq, hpar'⟩
    · rw [hself, hqfs, Function.update_self, hpar]
      rfl
    · rw [heq, hpar', hg.par p' hp' q' hmem]

/-- **A queue goes**, with its place in the table of its flowset. -/
theorem Graph.dropQueue (hg : Graph F S L s) (hp : p ∈ s.sis)
    (hqfs : (s.inst p).qfs q = some fp) (hq : q ∈ (s.inst p).s.live)
    (hsame : (s.inst p).Same x) (hlive : x.s.live = (s.inst p).s.live.erase q)
    (hx : x.qfs = (s.inst p).qfs)
    (hpars : ∀ q' ∈ x.s.live, (x.s.queue q').fs.fs.par = ((s.inst p).s.queue q').fs.fs.par)
    (hqht : ∀ a, a ∈ qht.list ↔ a ∈ (s.fsk fp).qht.list ∧ a ≠ ⟨p, q⟩) (hnodup : qht.Nodup) :
    Graph F S L t := by
  have hfp : fp ∈ F := by
    by_contra hfp
    obtain ⟨fp', hfp', hs⟩ := hg.attached p hp q hq
    obtain rfl : fp = fp' := Option.some.inj (hqfs.symm.trans hfp')
    rw [hg.fsk_zero fp hfp] at hs
    exact absurd hs (by simp)
  have hfsOf : ∀ o, (t.fsOf o).fs.par = (s.fsOf o).fs.par := fun o => by
    rcases o with _ | fp'
    · rfl
    · rcases eq_or_ne fp' fp with rfl | hne
      · simp [Dn.fsOf, hfsk]
      · simp [Dn.fsOf, hfsk, hne]
  have hscheds : ∀ fp', (t.fsk fp').sched = (s.fsk fp').sched := fun fp' => by
    rcases eq_or_ne fp' fp with rfl | hne
    · rw [hfsk, Function.update_self]
    · rw [hfsk, Function.update_of_ne hne]
  have hinst : ∀ p', (t.inst p').sched = (s.inst p').sched ∧ (t.inst p').qfs = (s.inst p').qfs :=
    fun p' => by
      rcases eq_or_ne p' p with rfl | hne
      · rw [hself]
        exact ⟨hsame.sched, hx⟩
      · rw [hother p' hne]
        exact ⟨rfl, rfl⟩
  have hlives : ∀ {p' q'}, q' ∈ (t.inst p').s.live → q' ∈ (s.inst p').s.live ∧
      ((t.inst p').s.queue q').fs.fs.par = ((s.inst p').s.queue q').fs.fs.par := fun {p' q'} hq' => by
    rcases eq_or_ne p' p with rfl | hne
    · rw [hself] at hq' ⊢
      have hpar := hpars q' hq'
      rw [hlive] at hq'
      exact ⟨Finset.mem_of_mem_erase hq', hpar⟩
    · rw [hother p' hne] at hq' ⊢
      exact ⟨hq', rfl⟩
  refine hg.of_queues hbrk hsis hfsu hschk hfsk hself hother hfp hsame
    ⟨fun p' hp' q' hq' => ?_, fun fp' a => ?_, fun fp' => ?_, fun p' hp' q' hq' => ?_,
      fun p' hp' q' hq' => ?_⟩
  · rw [hsis] at hp'
    exact (hg.queue_lt p' hp' q' (hlives hq').1).trans_le hbrk
  · obtain ⟨p', q'⟩ := a
    rw [hsis, (hinst p').2]
    rcases eq_or_ne fp' fp with rfl | hne
    · rw [hfsk, Function.update_self, hqht, hg.queues]
      rcases eq_or_ne p' p with rfl | hpne
      · rw [hself, hlive]
        rcases eq_or_ne q' q with rfl | hqne
        · simp
        · simp [hqne]
      · rw [hother p' hpne]
        simp [hpne]
    · rw [hfsk, Function.update_of_ne hne, hg.queues]
      rcases eq_or_ne p' p with rfl | hpne
      · rw [hself, hlive]
        rcases eq_or_ne q' q with rfl | hqne
        · simp [hqfs, hne.symm]
        · simp [hqne]
      · rw [hother p' hpne]
  · rcases eq_or_ne fp' fp with rfl | hne
    · rw [hfsk, Function.update_self]
      exact hnodup
    · rw [hfsk, Function.update_of_ne hne]
      exact hg.queues_nodup fp'
  · rw [hsis] at hp'
    obtain ⟨fp', hfp', hs⟩ := hg.attached p' hp' q' (hlives hq').1
    exact ⟨fp', by rw [(hinst p').2, hfp'], by rw [hscheds, hs, (hinst p').1]⟩
  · rw [hsis] at hp'
    rw [hfsOf, (hinst p').2, (hlives hq').2, hg.par p' hp' q' (hlives hq').1]

end Queue

/-! ### Flowsets and schedulers come and go -/

/-- The instances when a scheduler without instances comes or goes. -/
theorem Insts.setSchk {x : Schk} (h : Insts s) (hbrk : s.brk ≤ t.brk) (hsis : t.sis = s.sis)
    (hinst : t.inst = s.inst) (hschk : t.schk = Function.update s.schk sp x)
    (hempty : (s.schk sp).siht.list = []) (hx : x.siht.list = []) (hnodup : x.siht.Nodup) :
    Insts t := by
  refine h.congr hbrk hsis (fun sp' => ?_) (fun sp' => ?_) (fun p hp => ?_) fun p _ => ?_
  · rcases eq_or_ne sp' sp with rfl | hne
    · rw [hschk, Function.update_self, hx, hempty]
    · rw [hschk, Function.update_of_ne hne]
  · rcases eq_or_ne sp' sp with rfl | hne
    · rw [hschk, Function.update_self]
      exact hnodup
    · rw [hschk, Function.update_of_ne hne]
      exact h.insts_nodup sp'
  · have hne : (s.inst p).sched ≠ sp := fun he => by
      have hmem := (h.insts sp p).2 ⟨hp, he⟩
      rw [hempty] at hmem
      exact absurd hmem List.not_mem_nil
    rw [hschk, Function.update_of_ne hne]
  · rw [hinst]
    exact (SchInst.Refs.refl _).toSame

/-- A write to a flowset without queues keeps the queues. -/
theorem Queues.setFsk {f : Fsk} (h : Queues s) (hbrk : s.brk ≤ t.brk) (hsis : t.sis = s.sis)
    (hinst : t.inst = s.inst) (hfsk : t.fsk = Function.update s.fsk fp f)
    (hempty : (s.fsk fp).qht.list = []) (hf : f.qht.list = []) (hnodup : f.qht.Nodup) :
    Queues t := by
  have hother : ∀ fp', fp' ≠ fp → t.fsk fp' = s.fsk fp' := fun fp' hne => by
    rw [hfsk, Function.update_of_ne hne]
  have hne : ∀ {p q}, p ∈ s.sis → q ∈ (s.inst p).s.live → (s.inst p).qfs q ≠ some fp :=
    fun {p q} hp hq he => by
      have hmem := (h.queues fp ⟨p, q⟩).2 ⟨hp, hq, he⟩
      rw [hempty] at hmem
      exact absurd hmem List.not_mem_nil
  refine ⟨fun p hp q hq => ?_, fun fp' a => ?_, fun fp' => ?_, fun p hp q hq => ?_,
    fun p hp q hq => ?_⟩
  · rw [hsis] at hp
    rw [hinst] at hq
    exact (h.queue_lt p hp q hq).trans_le hbrk
  · have hlist : (t.fsk fp').qht.list = (s.fsk fp').qht.list := by
      rcases eq_or_ne fp' fp with rfl | hne
      · rw [hfsk, Function.update_self, hf, hempty]
      · rw [hother fp' hne]
    rw [hlist, h.queues, hsis, hinst]
  · rcases eq_or_ne fp' fp with rfl | hne
    · rw [hfsk, Function.update_self]
      exact hnodup
    · rw [hother fp' hne]
      exact h.queues_nodup fp'
  · rw [hsis] at hp
    rw [hinst] at hq ⊢
    obtain ⟨fp', hfp', hs⟩ := h.attached p hp q hq
    have hfpne : fp' ≠ fp := fun he => hne hp hq (he ▸ hfp')
    exact ⟨fp', hfp', by rw [hother fp' hfpne, hs]⟩
  · rw [hsis] at hp
    rw [hinst] at hq ⊢
    obtain ⟨fp', hfp', -⟩ := h.attached p hp q hq
    have hfpne : fp' ≠ fp := fun he => hne hp hq (he ▸ hfp')
    have hpar := h.par p hp q hq
    rw [hfp'] at hpar ⊢
    change (t.fsk fp').data.fs.par = _
    rw [hother fp' hfpne]
    exact hpar

/-- A flowset leaves its list. -/
theorem Graph.unlist {l : List FskPtr} {o : Option SchkPtr} (hg : Graph F S none s)
    (hfp : fp ∈ s.fskList o) (hl : ∀ fp', fp' ∈ l ↔ fp' ∈ s.fskList o ∧ fp' ≠ fp)
    (hnodup : l.Nodup) : Graph F S (some fp) (s.setFskList l o) := by
  have hsp : ∀ sp, o = some sp → sp ∈ S := by
    rintro sp rfl
    by_contra hsp
    rw [Dn.fskList, hg.schk_zero sp hsp] at hfp
    exact absurd hfp List.not_mem_nil
  have hlist : ∀ o', (s.setFskList l o).fskList o' = if o' = o then l else s.fskList o' := by
    intro o'
    rcases o with _ | sp <;> rcases o' with _ | sp'
    · rfl
    · rfl
    · rfl
    · by_cases hne : sp' = sp
      · subst hne
        simp [Dn.setFskList, Dn.fskList, Dn.setSchk]
      · simp [Dn.setFskList, Dn.fskList, Dn.setSchk, hne]
  have hlists : Lists F (some fp) (s.setFskList l o) := by
    have hsched : ∀ fp', ((s.setFskList l o).fsk fp').sched = (s.fsk fp').sched := by
      cases o <;> exact fun _ => rfl
    have hmine : (s.fsk fp).sched = o := ((hg.listed o fp).1 hfp).2.2
    refine ⟨fun o' fp' => ?_, fun o' => ?_⟩
    · rw [hlist, hsched]
      split_ifs with ho
      · subst ho
        rw [hl, hg.listed]
        exact ⟨fun ⟨⟨h, _, ho⟩, hne⟩ => ⟨h, fun he => hne (Option.some.inj he).symm, ho⟩,
          fun ⟨h, hne, ho⟩ => ⟨⟨h, by simp, ho⟩, fun he => hne (he ▸ rfl)⟩⟩
      · rw [hg.listed]
        have himp : (s.fsk fp').sched = o' → fp ≠ fp' := by
          rintro rfl rfl
          exact ho hmine
        simp only [ne_eq, reduceCtorEq, not_false_eq_true, true_and, Option.some.injEq]
        exact and_congr_right fun _ => ⟨fun h => ⟨himp h, h⟩, fun h => h.2⟩
    · rw [hlist]
      split_ifs
      · exact hnodup
      · exact hg.list_nodup o'
  cases o with
  | none => exact ⟨⟨hg.brk_pos, hg.fsk_lt, hg.schk_lt, hg.fsk_zero, hg.schk_zero⟩, hlists,
      ⟨hg.inst_lt, hg.insts, hg.insts_nodup, hg.kind, hg.si, hg.sound⟩,
      ⟨hg.queue_lt, hg.queues, hg.queues_nodup, hg.attached, hg.par⟩⟩
  | some sp =>
    refine ⟨hg.toMemory.setSchk (hsp sp rfl) le_rfl rfl rfl, hlists, ?_,
      ⟨hg.queue_lt, hg.queues, hg.queues_nodup, hg.attached, hg.par⟩⟩
    have hschk : ∀ sp', ((s.setFskList l (some sp)).schk sp').siht = (s.schk sp').siht ∧
        ((s.setFskList l (some sp)).schk sp').fp = (s.schk sp').fp := fun sp' => by
      by_cases hne : sp' = sp
      · subst hne
        simp [Dn.setFskList, Dn.setSchk]
      · simp [Dn.setFskList, Dn.setSchk, hne]
    refine hg.toInsts.congr le_rfl rfl (fun sp' => by rw [(hschk sp').1]) (fun sp' => ?_)
      (fun p _ => (hschk _).2) fun p _ => (SchInst.Refs.refl _).toSame
    rw [(hschk sp').1]
    exact hg.insts_nodup sp'

/-- A flowset without queues goes to the list `fsu`. -/
theorem Graph.relist {f : Fsk} (hg : Graph F S (some fp) s) (hfp : fp ∈ F)
    (hempty : (s.fsk fp).qht.list = []) (hf : f.qht.list = []) (hnodup : f.qht.Nodup)
    (hsched : f.sched = none) : Graph F S none { s.setFsk fp f with fsu := fp :: s.fsu } where
  toMemory := by
    refine ⟨hg.brk_pos, hg.fsk_lt, hg.schk_lt, fun fp' hfp' => ?_, hg.schk_zero⟩
    have hne : fp' ≠ fp := fun he => hfp' (he ▸ hfp)
    simpa [Dn.setFsk, hne] using hg.fsk_zero fp' hfp'
  toLists := by
    have hself : ∀ o, fp ∉ s.fskList o := fun o h => ((hg.listed o fp).1 h).2.1 rfl
    refine ⟨fun o fp' => ?_, fun o => ?_⟩
    · rcases eq_or_ne fp' fp with rfl | hne
      · rcases o with _ | sp
        · simp [Dn.fskList, Dn.setFsk, hfp, hsched]
        · simpa [Dn.fskList, Dn.setFsk, hsched] using hself (some sp)
      · have := hg.listed o fp'
        rcases o with _ | sp
        · simpa [Dn.fskList, Dn.setFsk, hne, hne.symm] using this
        · simpa [Dn.fskList, Dn.setFsk, hne, hne.symm] using this
    · rcases o with _ | sp
      · exact List.nodup_cons.2 ⟨hself none, hg.list_nodup none⟩
      · exact hg.list_nodup (some sp)
  toInsts := ⟨hg.inst_lt, hg.insts, hg.insts_nodup, hg.kind, hg.si, hg.sound⟩
  toQueues := hg.toQueues.setFsk le_rfl rfl rfl rfl hempty hf hnodup

/-- A write to a flowset without queues that keeps its scheduler. -/
theorem Graph.setFsk_bare {f : Fsk} (hg : Graph F S L s) (hfp : fp ∈ F)
    (hempty : (s.fsk fp).qht.list = []) (hf : f.qht.list = []) (hnodup : f.qht.Nodup)
    (hsched : f.sched = (s.fsk fp).sched) : Graph F S L (s.setFsk fp f) where
  toMemory := by
    refine ⟨hg.brk_pos, hg.fsk_lt, hg.schk_lt, fun fp' hfp' => ?_, hg.schk_zero⟩
    have hne : fp' ≠ fp := fun he => hfp' (he ▸ hfp)
    simpa [Dn.setFsk, hne] using hg.fsk_zero fp' hfp'
  toLists := by
    refine hg.toLists.congr (fun o => by cases o <;> rfl) fun fp' => ?_
    rcases eq_or_ne fp' fp with rfl | hne
    · simp [Dn.setFsk, hsched]
    · simp [Dn.setFsk, hne]
  toInsts := ⟨hg.inst_lt, hg.insts, hg.insts_nodup, hg.kind, hg.si, hg.sound⟩
  toQueues := hg.toQueues.setFsk le_rfl rfl rfl rfl hempty hf hnodup

/-- A flowset without queues goes. -/
theorem Graph.freeFsk (hg : Graph F S (some fp) s) (hempty : (s.fsk fp).qht.list = []) :
    Graph (F \ {fp}) S none (s.setFsk fp {}) where
  toMemory := by
    refine ⟨hg.brk_pos, fun fp' h => hg.fsk_lt fp' h.1, hg.schk_lt, fun fp' hfp' => ?_,
      hg.schk_zero⟩
    rcases eq_or_ne fp' fp with rfl | hne
    · simp [Dn.setFsk]
    · simpa [Dn.setFsk, hne] using hg.fsk_zero fp' fun h => hfp' ⟨h, hne⟩
  toLists := by
    refine ⟨fun o fp' => ?_, fun o => ?_⟩
    · have hlist : (s.setFsk fp {}).fskList o = s.fskList o := by cases o <;> rfl
      rw [hlist, hg.listed]
      rcases eq_or_ne fp' fp with rfl | hne
      · simp
      · simp [Dn.setFsk, hne, hne.symm]
    · have hlist : (s.setFsk fp {}).fskList o = s.fskList o := by cases o <;> rfl
      rw [hlist]
      exact hg.list_nodup o
  toInsts := ⟨hg.inst_lt, hg.insts, hg.insts_nodup, hg.kind, hg.si, hg.sound⟩
  toQueues := hg.toQueues.setFsk le_rfl rfl rfl rfl hempty rfl trivial

/-- A flowset without scheduler has no queues. -/
theorem Graph.qht_nil (hg : Graph F S L s) (hnone : (s.fsk fp).sched = none) :
    (s.fsk fp).qht.list = [] := by
  refine List.eq_nil_iff_forall_not_mem.2 fun a ha => ?_
  obtain ⟨hp, hq, hqfs⟩ := (hg.queues fp a).1 ha
  obtain ⟨fp', hfp', hs⟩ := hg.attached _ hp _ hq
  obtain rfl : fp = fp' := Option.some.inj (hqfs.symm.trans hfp')
  rw [hnone] at hs
  exact absurd hs (by simp)

/-- A flowset without queues goes from `fsu` to the scheduler `sp`. -/
theorem Graph.attach {f : Fsk} (hg : Graph F S L s) (hfp : fp ∈ s.fsu) (hsp : sp ∈ S)
    (hf : f.qht.list = []) (hnodup : f.qht.Nodup) (hsched : f.sched = some sp) :
    Graph F S L (({ s with fsu := s.fsu.erase fp }.setFskList (fp :: (s.schk sp).fskList)
      (some sp)).setFsk fp f) := by
  obtain ⟨hmem, hL, hnone⟩ := (hg.listed none fp).1 hfp
  have hempty := hg.qht_nil hnone
  set t := ({ s with fsu := s.fsu.erase fp }.setFskList (fp :: (s.schk sp).fskList)
    (some sp)).setFsk fp f
  have hfsk : t.fsk = Function.update s.fsk fp f := rfl
  have hschk : t.schk =
      Function.update s.schk sp { s.schk sp with fskList := fp :: (s.schk sp).fskList } := rfl
  refine ⟨⟨hg.brk_pos, hg.fsk_lt, hg.schk_lt, fun fp' hfp' => ?_, fun sp' hsp' => ?_⟩, ?_, ?_,
    hg.toQueues.setFsk le_rfl rfl rfl hfsk hempty hf hnodup⟩
  · have hne : fp' ≠ fp := fun he => hfp' (he ▸ hmem)
    rw [hfsk, Function.update_of_ne hne]
    exact hg.fsk_zero fp' hfp'
  · have hne : sp' ≠ sp := fun he => hsp' (he ▸ hsp)
    rw [hschk, Function.update_of_ne hne]
    exact hg.schk_zero sp' hsp'
  · have hlist : ∀ o, t.fskList o = if o = none then s.fsu.erase fp
        else if o = some sp then fp :: s.fskList o else s.fskList o := by
      intro o
      rcases o with _ | sp'
      · rfl
      · by_cases hne : sp' = sp
        · subst hne
          simp [Dn.fskList, hschk]
        · simp [Dn.fskList, hschk, hne]
    have hother : ∀ sp', fp ∉ s.fskList (some sp') := fun sp' h => by
      have := ((hg.listed _ fp).1 h).2.2
      rw [hnone] at this
      exact absurd this (by simp)
    have hfsu : s.fsu.Nodup := hg.list_nodup none
    refine ⟨fun o fp' => ?_, fun o => ?_⟩
    · rw [hlist, hfsk]
      rcases eq_or_ne fp' fp with rfl | hne
      · rcases o with _ | sp'
        · simp [hsched, hfsu.mem_erase_iff]
        · by_cases hspne : sp' = sp
          · simp [hspne, hsched, hmem, hL]
          · simp [hspne, hsched, hother, Ne.symm hspne]
      · rw [Function.update_of_ne hne]
        rcases o with _ | sp'
        · have hiff := hg.listed none fp'
          simp only [Dn.fskList] at hiff
          simp [List.mem_erase_of_ne hne, hiff]
        · have hiff := hg.listed (some sp') fp'
          by_cases hspne : sp' = sp
          · subst hspne
            simpa [hne] using hiff
          · simpa [hne, hspne] using hiff
    · rw [hlist]
      split_ifs with h0 h1
      · exact hfsu.erase fp
      · exact List.nodup_cons.2 ⟨h1 ▸ hother sp, hg.list_nodup o⟩
      · exact hg.list_nodup o
  · have hsame : ∀ sp', (t.schk sp').siht = (s.schk sp').siht ∧
        (t.schk sp').fp = (s.schk sp').fp := fun sp' => by
      rcases eq_or_ne sp' sp with rfl | hne
      · simp [hschk]
      · simp [hschk, hne]
    refine hg.toInsts.congr le_rfl rfl (fun sp' => by rw [(hsame sp').1]) (fun sp' => ?_)
      (fun p _ => (hsame _).2) fun p _ => (SchInst.Refs.refl _).toSame
    rw [(hsame sp').1]
    exact hg.insts_nodup sp'

/-- A new flowset, on the list `fsu`. -/
theorem Graph.newFsk {f : Fsk} (hg : Graph F S L s) (hL : L ≠ some s.brk) (hf : f.qht.list = [])
    (hnodup : f.qht.Nodup) (hsched : f.sched = none) (hfsk : t.fsk = Function.update s.fsk s.brk f)
    (hschk : t.schk = s.schk) (hinst : t.inst = s.inst) (hsis : t.sis = s.sis)
    (hfsu : t.fsu = s.brk :: s.fsu) (hbrk : t.brk = s.brk + 1) :
    Graph (insert s.brk F) S L t := by
  have hnew : s.brk ∉ F := fun h => (hg.fsk_lt _ h).ne rfl
  have hle : s.brk ≤ t.brk := by omega
  have hempty : (s.fsk s.brk).qht.list = [] := by
    rw [hg.fsk_zero _ hnew]
    rfl
  refine ⟨⟨hg.brk_pos.trans_le hle, fun fp' hfp' => ?_, fun sp h => (hg.schk_lt sp h).trans_le hle,
    fun fp' hfp' => ?_, ?_⟩, ⟨fun o fp' => ?_, fun o => ?_⟩, ?_,
    hg.toQueues.setFsk hle hsis hinst hfsk hempty hf hnodup⟩
  · rcases hfp' with rfl | hfp'
    · exact hbrk ▸ Nat.lt_succ_self _
    · exact (hg.fsk_lt fp' hfp').trans_le hle
  · rw [Set.mem_insert_iff, not_or] at hfp'
    rw [hfsk, Function.update_of_ne hfp'.1]
    exact hg.fsk_zero fp' hfp'.2
  · rw [hschk]
    exact hg.schk_zero
  · have hiff := hg.listed o fp'
    rw [hfsk]
    rcases eq_or_ne fp' s.brk with rfl | hne
    · rcases o with _ | sp
      · simp [Dn.fskList, hfsu, hsched, hL]
      · simp only [Dn.fskList] at hiff
        simp [Dn.fskList, hschk, hsched, hiff, hnew]
    · rcases o with _ | sp
      · simpa [Dn.fskList, hfsu, hne] using hiff
      · simpa [Dn.fskList, hschk, hne] using hiff
  · rcases o with _ | sp
    · rw [Dn.fskList, hfsu]
      refine List.nodup_cons.2 ⟨fun h => hnew ?_, hg.list_nodup none⟩
      exact ((hg.listed none _).1 h).1
    · rw [Dn.fskList, hschk]
      exact hg.list_nodup (some sp)
  · refine hg.toInsts.congr hle hsis (fun sp => by rw [hschk]) (hschk ▸ hg.insts_nodup)
      (fun p _ => by rw [hschk]) fun p _ => ?_
    rw [hinst]
    exact (SchInst.Refs.refl _).toSame

/-- Writing a scheduler that has no flowsets and no instances, before and after. -/
theorem Graph.setBare {x : Schk} {S' : Set SchkPtr} (hg : Graph F S L s) (hbrk : s.brk ≤ t.brk)
    (hS : ∀ sp' ∈ S', sp' < t.brk) (hother : ∀ sp', sp' ∉ S' → sp' ∉ S ∨ sp' = sp ∧ x = {})
    (hlist : (s.schk sp).fskList = []) (hsiht : (s.schk sp).siht.list = [])
    (hxlist : x.fskList = []) (hxsiht : x.siht.list = []) (hxnodup : x.siht.Nodup)
    (hfsk : t.fsk = s.fsk) (hfsu : t.fsu = s.fsu) (hinst : t.inst = s.inst) (hsis : t.sis = s.sis)
    (hschk : t.schk = Function.update s.schk sp x) (hx : sp ∉ S' → x = {}) :
    Graph F S' L t := by
  refine ⟨⟨hg.brk_pos.trans_le hbrk, fun fp h => (hg.fsk_lt fp h).trans_le hbrk, hS, ?_,
    fun sp' hsp' => ?_⟩, ?_, hg.toInsts.setSchk hbrk hsis hinst hschk hsiht hxsiht hxnodup, ?_⟩
  · rw [hfsk]
    exact hg.fsk_zero
  · rcases eq_or_ne sp' sp with rfl | hne
    · rw [hschk, Function.update_self, hx hsp']
    · rw [hschk, Function.update_of_ne hne]
      exact hg.schk_zero sp' ((hother sp' hsp').resolve_right fun h => hne h.1)
  · refine hg.toLists.congr (fun o => ?_) fun fp => by rw [hfsk]
    rcases o with _ | sp'
    · exact hfsu
    · rcases eq_or_ne sp' sp with rfl | hne
      · rw [Dn.fskList, hschk, Function.update_self, hxlist, Dn.fskList, hlist]
      · rw [Dn.fskList, hschk, Function.update_of_ne hne, Dn.fskList]
  · refine hg.toQueues.congr hbrk hsis (fun fp => ?_) fun p _ => ?_
    · rw [hfsk]
      exact .refl _
    · rw [hinst]
      exact .refl _

/-- A new scheduler. -/
theorem Graph.newSchk {x : Schk} (hg : Graph F S L s) (hxlist : x.fskList = [])
    (hxsiht : x.siht.list = []) (hxnodup : x.siht.Nodup) (hfsk : t.fsk = s.fsk)
    (hfsu : t.fsu = s.fsu) (hinst : t.inst = s.inst) (hsis : t.sis = s.sis)
    (hschk : t.schk = Function.update s.schk s.brk x) (hbrk : t.brk = s.brk + 1) :
    Graph F (insert s.brk S) L t := by
  have hnew : s.schk s.brk = {} := hg.schk_zero _ fun h => (hg.schk_lt _ h).ne rfl
  have hle : s.brk ≤ t.brk := by omega
  refine hg.setBare hle (fun sp' hsp' => ?_) (fun sp' hsp' => ?_) (by rw [hnew])
    (by rw [hnew]; rfl) hxlist hxsiht hxnodup hfsk hfsu hinst hsis hschk fun h => ?_
  · rcases hsp' with rfl | hsp'
    · exact hbrk ▸ Nat.lt_succ_self _
    · exact (hg.schk_lt sp' hsp').trans_le hle
  · exact .inl fun h => hsp' (.inr h)
  · exact absurd (Set.mem_insert _ _) h

/-- A scheduler without flowsets and instances goes. -/
theorem Graph.freeSchk (hg : Graph F S L s) {sp : SchkPtr} (hlist : (s.schk sp).fskList = [])
    (hsiht : (s.schk sp).siht.list = []) : Graph F (S \ {sp}) L (s.setSchk sp {}) := by
  have hnodup : ({} : Schk).siht.Nodup := trivial
  refine hg.setBare le_rfl (fun sp' hsp' => hg.schk_lt sp' hsp'.1) (fun sp' hsp' => ?_) hlist hsiht
    rfl rfl hnodup rfl rfl rfl rfl rfl fun _ => rfl
  rcases eq_or_ne sp' sp with rfl | hne
  · exact .inr ⟨rfl, rfl⟩
  · exact .inl fun h => hsp' ⟨h, hne⟩

end Dummynet
