import Dummynet.System.Get

/-!
# When a listing is complete

The tool takes an answer for complete if the largest object would still fit behind it. The list of
the flowsets of a scheduler can be longer than what counts as the largest object, and an answer for
which there was no room at all is the shortest one.

## Main definitions

* `Complete`: an answer that is taken for complete has all objects of the request.
* `Roomy`: an object with that much room left in the buffer of the tool fits into the answer.

## Main results

* `complete_iff`: the two agree, for every run of the loop.
-/

namespace Dummynet.Get

open Filling

variable {kind : ListKind} {r : Ranges} {s : Dn} {b : ℕ}

/-- The claim of the tool: the answer with which it leaves the loop has all selected objects, each
once. -/
def Complete (kind : ListKind) (r : Ranges) (s : Dn) (ks : ℕ → Dn) : Prop :=
  ∀ i x, dummynetList kind r s ks = .ok i x → x = selected kind (asked kind r) (ks i)

/-- The room for an answer, if it was measured like this: the kernel allocates nothing if the sum
leaves the range of an `int`, or if the buffer of the tool is smaller. -/
def room (b : ℕ) (need : ℤ) : ℕ := if 0 < need ∧ need ≤ b then need.toNat else sizeofId

/-- What is measured for a buffer of the tool: the buffer itself, or the space for all objects. -/
def measured (kind : ListKind) (r : Ranges) (b : ℕ) (s : Dn) : ℤ :=
  if r = [] then computeSpace kind s else ((b : ℤ) - sizeofId).bmod (2 ^ 32)

/-- Where the largest object would still fit into the buffer of the tool, the next object can be
copied, and fits into the answer. -/
def Fits (kind : ListKind) (r : Ranges) (b : ℕ) (s : Dn) : Prop :=
  sizeofId + 8 * r.length ≤ b → 0 ≤ measured kind r b s →
    ∀ pre x post, selected kind (asked kind r) s = pre ++ x :: post →
      sizeofId + size GetObj.len pre + maxSize ≤ b →
        x.Sound ∧ sizeofId + size GetObj.len pre + x.len ≤
          room b ((measured kind r b s + sizeofId).bmod (2 ^ 32))

/-- The rounds that are reached meet `Fits`. -/
def FitsFrom (kind : ListKind) (r : Ranges) (ks : ℕ → Dn) : ℕ → ℕ → ℕ → Prop
  | 0, _, _ => True
  | n + 1, i, b => Fits kind r b (ks i) ∧
      ∀ x, listRound kind r b (ks i) = .retry x → FitsFrom kind r ks n (i + 1) (2 * b % 2 ^ 32)

/-- The request fits into its length field, and `Fits` holds in each round. -/
def Roomy (kind : ListKind) (r : Ranges) (s : Dn) (ks : ℕ → Dn) : Prop :=
  r.length < 8191 ∧ ∀ b, firstBuflen kind r s = some b → FitsFrom kind r ks 20 0 b

/-- A state in order: every object can be copied, and `compute_space` covers the objects. -/
structure Tidy (kind : ListKind) (r : Ranges) (s : Dn) : Prop where
  sound : ∀ x ∈ selected kind (asked kind r) s, x.Sound
  covers : r = [] → size GetObj.len (selected kind (asked kind r) s) ≤ computeSpace kind s ∧
    computeSpace kind s + sizeofId < 2 ^ 31

theorem maxSize_eq : maxSize = 120 := by decide

/-! ### The request -/

theorem requestLen_of_lt (h : r.length < 8191) : requestLen r = sizeofId + 8 * r.length :=
  Nat.mod_eq_of_lt (by unfold sizeofId; omega)

theorem seen_eq (h : r.length < 8191) : seen kind r = asked kind r := by
  unfold seen asked
  rw [requestLen_of_lt h]
  by_cases hr : r = []
  · rw [if_pos (by rw [hr]; rfl), if_pos hr]
  · have hpos := List.length_pos_iff.2 hr
    have htake : (sizeofId + 8 * r.length) / 8 - 1 = r.length := by unfold sizeofId; omega
    rw [if_neg (by omega), if_neg hr, htake, List.take_length]

theorem spaceOf_eq (h : r.length < 8191) : spaceOf kind r b s = measured kind r b s := by
  unfold spaceOf measured
  rw [requestLen_of_lt h]
  by_cases hr : r = []
  · rw [if_neg (by rw [hr]; simp), if_pos hr]
  · have hpos := List.length_pos_iff.2 hr
    rw [if_pos (by omega), if_neg hr]

/-! ### The answer -/

/-- After two rounds the loop has room for what is measured, or it gives up. -/
theorem spaceLoop_eq {space : ℤ} (h : 0 ≤ space) : spaceLoop b space 10 none =
    some ((space + sizeofId).bmod (2 ^ 32),
      if 0 < (space + sizeofId).bmod (2 ^ 32) ∧ (space + sizeofId).bmod (2 ^ 32) ≤ b then
        some ((space + sizeofId).bmod (2 ^ 32)) else none) := by
  rw [spaceLoop, if_neg h.not_gt]
  dsimp only [Option.getD_none]
  by_cases hpos : 0 < (space + sizeofId).bmod (2 ^ 32)
  · rw [if_neg hpos.not_ge]
    by_cases hb : (space + sizeofId).bmod (2 ^ 32) ≤ b
    · rw [if_neg hb.not_gt, if_pos ⟨hpos, hb⟩, spaceLoop, if_neg h.not_gt, Option.getD_some,
        if_pos le_rfl]
    · rw [if_pos (not_le.1 hb), if_neg fun hand => hb hand.2]
  · rw [if_pos (not_lt.1 hpos), if_neg fun hand => hpos hand.1]

/-- The answer of `dummynet_get` with the given room. -/
def answer (kind : ListKind) (r : Ranges) (s : Dn) (cap : ℕ) : List GetObj :=
  (copyAll (cap - sizeofId) kind (asked kind r) s []).2

/-- The round with a request that is not refused. -/
theorem listRound_eq (hr : r.length < 8191) (hlen : sizeofId + 8 * r.length ≤ b)
    (h0 : 0 ≤ measured kind r b s) :
    listRound kind r b s =
      let need := (measured kind r b s + sizeofId).bmod (2 ^ 32)
      let x := if 0 < need ∧ need ≤ b then answer kind r s need.toNat else []
      if (need % 2 ^ 32).toNat ≤ sizeofId then .done
      else if (sizeofId + size GetObj.len x + maxSize) % 2 ^ 32 ≤ b then .ok x else .retry x := by
  unfold listRound dummynetGet
  rw [requestLen_of_lt hr, if_neg hlen.not_gt, if_neg (by omega), spaceOf_eq hr, spaceLoop_eq h0,
    seen_eq hr]
  dsimp only [Option.map_some]
  by_cases hgot : 0 < (measured kind r b s + sizeofId).bmod (2 ^ 32) ∧
      (measured kind r b s + sizeofId).bmod (2 ^ 32) ≤ b
  · simp only [if_pos hgot, answer]
  · simp only [if_neg hgot, size_nil, add_zero]

/-- A round that is refused has no answer. -/
theorem listRound_ok (hr : r.length < 8191) {x : List GetObj} (h : listRound kind r b s = .ok x) :
    sizeofId + 8 * r.length ≤ b ∧ 0 ≤ measured kind r b s := by
  unfold listRound at h
  split_ifs at h with hlen
  rw [requestLen_of_lt hr, not_lt] at hlen
  refine ⟨hlen, not_lt.1 fun hneg => ?_⟩
  have hnone : dummynetGet kind r b s = none := by
    unfold dummynetGet
    rw [spaceOf_eq hr, spaceLoop, if_pos hneg]
    simp
  rw [hnone] at h
  cases h

/-- An `int` differs from a number by a multiple of `2 ^ 32`. -/
theorem bmod_spec (a : ℤ) : ∃ k : ℤ, a = a.bmod (2 ^ 32) + 2 ^ 32 * k ∧
    -2 ^ 31 ≤ a.bmod (2 ^ 32) ∧ a.bmod (2 ^ 32) < 2 ^ 31 := by
  refine ⟨a.bdiv (2 ^ 32), (Int.bmod_add_bdiv a (2 ^ 32)).symm, ?_, ?_⟩
  · exact Int.le_bmod (x := a) (m := 2 ^ 32) (by decide)
  · exact Int.bmod_lt (x := a) (m := 2 ^ 32) (by decide)

/-- The copy with the given room. -/
theorem outcome_answer (kind : ListKind) (r : Ranges) (s : Dn) (cap : ℕ) :
    Outcome (cap - sizeofId) GetObj.len GetObj.Sound GetObj.Ends [] (selected kind (asked kind r) s) (copyAll (cap - sizeofId) kind (asked kind r) s []) :=
  writes_copyAll [] (Nat.zero_le _)

/-- The measure of a buffer is what the header leaves of it. -/
theorem measured_range (hnil : r ≠ []) (hlen : sizeofId ≤ b) (hb : b < 2 ^ 32)
    (h0 : 0 ≤ measured kind r b s) : measured kind r b s = b - sizeofId := by
  unfold measured at *
  rw [if_neg hnil] at *
  obtain ⟨k, hk, -, hlt⟩ := bmod_spec ((b : ℤ) - sizeofId)
  unfold sizeofId at *
  omega

/-- An answer with objects has an id that tells so. -/
theorem id_gt (hlen : sizeofId + 8 * r.length ≤ b) (hb : b < 2 ^ 32) (ht : Tidy kind r s)
    (h0 : 0 ≤ measured kind r b s)
    (hpos : 0 < size GetObj.len (selected kind (asked kind r) s)) :
    sizeofId < ((measured kind r b s + sizeofId).bmod (2 ^ 32) % 2 ^ 32).toNat := by
  obtain ⟨k, hk, hge, hlt⟩ := bmod_spec (measured kind r b s + sizeofId)
  by_cases hnil : r = []
  · have hcov := ht.covers hnil
    have hmeasured : measured kind r b s = computeSpace kind s := if_pos hnil
    unfold sizeofId at *
    omega
  · have hlen' := List.length_pos_iff.2 hnil
    have hmeasured := measured_range hnil (by omega) hb h0
    unfold sizeofId at *
    omega

/-- The first object that is missing has a length that the tool counts with, or ends the copy. -/
theorem GetObj.Sound.ends_or {x : GetObj} (h : x.Sound) : x.Ends ∨ x.len = sizeofFlow := by
  cases x with
  | link => exact .inl trivial
  | profile => exact .inl trivial
  | fs => exact .inl trivial
  | sch => exact .inl trivial
  | text => exact .inl h
  | cut => exact h.elim
  | flow => exact .inr rfl

/-- Where everything fits, an answer that is taken for complete is complete. -/
theorem selected_of_fits (hr : r.length < 8191) {x : List GetObj}
    (h : listRound kind r b s = .ok x) (hfits : Fits kind r b s) :
    x = selected kind (asked kind r) s := by
  obtain ⟨hlen, h0⟩ := listRound_ok hr h
  have hfits := hfits hlen h0
  rw [listRound_eq hr hlen h0] at h
  dsimp only at h
  obtain ⟨k, hk, -, hlt⟩ := bmod_spec (measured kind r b s + sizeofId)
  generalize hneed : (measured kind r b s + sizeofId).bmod (2 ^ 32) = need at *
  split_ifs at h with hid hgot hok hok
  · -- the copy went ahead
    obtain rfl := Round.ok.inj h
    have hroom : room b need = need.toNat := if_pos hgot
    have hout := outcome_answer kind r s need.toNat
    unfold answer at hok ⊢
    generalize copyAll (need.toNat - sizeofId) kind (asked kind r) s [] = a at hok hout ⊢
    have hsize := hout.size_le
    cases hout with
    | full _ _ => rfl
    | @gap pre y post more e hos hy hmore _ =>
      simp only [size_append, size_nil] at hok hy hsize
      rw [Nat.mod_eq_of_lt (by rw [maxSize_eq]; unfold sizeofId at *; omega)] at hok
      have hall := hfits pre y post hos (by omega)
      rw [hroom] at hall
      exact absurd ⟨hall.1, by omega⟩ hy
  · -- there was no room, and nothing was copied
    obtain rfl := Round.ok.inj h
    cases hsel : selected kind (asked kind r) s with
    | nil => rfl
    | cons y post =>
      have hall := hfits [] y post hsel (by simpa [sizeofId, maxSize_eq] using hok)
      have hroom : room b need = sizeofId := if_neg hgot
      rw [hroom] at hall
      have hpos := hall.1.len_pos
      simp at hall
      omega

/-- In a state in order, an object that does not fit is missing in an answer that is taken for
complete. -/
theorem fits_of_selected (hr : r.length < 8191) (hb : b < 2 ^ 32) (ht : Tidy kind r s)
    (h : ∀ x, listRound kind r b s = .ok x → x = selected kind (asked kind r) s) :
    Fits kind r b s := by
  intro hlen h0 pre y post hsel hleft
  have hy : y ∈ selected kind (asked kind r) s := by
    rw [hsel]
    simp
  refine ⟨ht.sound y hy, not_lt.1 fun hgap => ?_⟩
  have hpos := (ht.sound y hy).len_pos
  have hsize : size GetObj.len (selected kind (asked kind r) s) =
      size GetObj.len pre + y.len + size GetObj.len post := by
    rw [hsel, size_append, size_cons, add_assoc]
  rw [listRound_eq hr hlen h0] at h
  dsimp only at h
  obtain ⟨k, hk, -, hlt⟩ := bmod_spec (measured kind r b s + sizeofId)
  have hid := id_gt hlen hb ht h0 (hsize ▸ by omega)
  generalize hneed : (measured kind r b s + sizeofId).bmod (2 ^ 32) = need at *
  rw [if_neg hid.not_ge] at h
  by_cases hgot : 0 < need ∧ need ≤ b
  · -- there was room, and the first object that did not fit ended the copy
    have hroom : room b need = need.toNat := if_pos hgot
    rw [hroom] at hgap
    rw [if_pos hgot] at h
    have hneedb : need = b := by
      by_cases hnil : r = []
      · have hcov := ht.covers hnil
        have hmeasured : measured kind r b s = computeSpace kind s := if_pos hnil
        unfold sizeofId at *
        omega
      · have hlen' := List.length_pos_iff.2 hnil
        have hmeasured := measured_range hnil (by omega) hb h0
        omega
    have hout := outcome_answer kind r s need.toNat
    unfold answer at h
    generalize copyAll (need.toNat - sizeofId) kind (asked kind r) s [] = a at h hout
    cases hout with
    | full _ hfull =>
      rw [List.nil_append, hsize] at hfull
      omega
    | @gap pre' y' post' more e hos hy' hmore hends =>
      have hy'sound := ht.sound y' (by rw [hos]; simp)
      have hgap' : need.toNat - sizeofId < size GetObj.len pre' + y'.len :=
        not_le.1 fun hle => hy' ⟨hy'sound, hle⟩
      have hpre : size GetObj.len pre' ≤ size GetObj.len pre := by
        rcases List.append_eq_append_iff.1 (hos.symm.trans hsel) with ⟨l, hl, -⟩ | ⟨l, hl, hyl⟩
        · rw [hl, size_append]
          exact Nat.le_add_right _ _
        · cases l with
          | nil => rw [hl, List.append_nil]
          | cons z l =>
            obtain ⟨rfl, -⟩ := List.cons.inj hyl
            rw [List.nil_append, size_append, hl, size_append, size_cons] at hmore
            omega
      have hends' : y'.Ends := hy'sound.ends_or.resolve_right fun hflow => by
        rw [hflow] at hgap'
        rw [maxSize_eq] at hleft
        unfold sizeofFlow sizeofId at *
        omega
      obtain ⟨rfl, rfl⟩ := hends hends'
      have hnil := h pre' ?_
      · rw [hos] at hnil
        simp at hnil
      · rw [if_pos (by simp; omega)]
        simp
  · rw [if_neg hgot] at h
    have hnil := h [] (if_pos ?_)
    · rw [hsel] at hnil
      simp at hnil
    · rw [size_nil, maxSize_eq] at *
      unfold sizeofId at *
      omega

/-! ### The loop -/

variable {ks : ℕ → Dn} {n i : ℕ} {x₀ : List GetObj}

theorem listLoop_complete (hr : r.length < 8191) (h : FitsFrom kind r ks n i b) {j : ℕ}
    {x : List GetObj} (hok : listLoop kind r ks n i b x₀ = .ok j x) :
    x = selected kind (asked kind r) (ks j) := by
  induction n generalizing i b x₀ with
  | zero => cases hok
  | succ n ih =>
    rw [listLoop] at hok
    cases hround : listRound kind r b (ks i) with
    | overrun =>
      rw [hround] at hok
      cases hok
    | done =>
      rw [hround] at hok
      cases hok
    | ok y =>
      rw [hround] at hok
      obtain ⟨rfl, rfl⟩ := ListExit.ok.inj hok
      exact selected_of_fits hr hround h.1
    | retry y =>
      rw [hround] at hok
      exact ih (h.2 y hround) hok

theorem listLoop_fits (hr : r.length < 8191) (hb : b < 2 ^ 32) (ht : ∀ i, Tidy kind r (ks i))
    (h : ∀ j x, listLoop kind r ks n i b x₀ = .ok j x → x = selected kind (asked kind r) (ks j)) :
    FitsFrom kind r ks n i b := by
  induction n generalizing i b x₀ with
  | zero => trivial
  | succ n ih =>
    refine ⟨fits_of_selected hr hb (ht i) fun x hx => h i x ?_, fun y hy => ?_⟩
    · rw [listLoop, hx]
    · have hrest : ∀ j x, listLoop kind r ks n (i + 1) (2 * b % 2 ^ 32) y = .ok j x →
          x = selected kind (asked kind r) (ks j) := by
        intro j x hx
        refine h j x ?_
        rwa [listLoop, hy]
      exact ih (Nat.mod_lt _ (by decide)) hrest

theorem firstBuflen_lt (h : firstBuflen kind r s = some b) : b < 2 ^ 32 := by
  unfold firstBuflen at h
  split_ifs at h
  · obtain rfl := Option.some.inj h
    decide
  · split at h
    · cases h
    · split_ifs at h
      obtain rfl := Option.some.inj h
      exact Nat.mod_lt _ (by decide)

/-- **Truncated answers.** An answer that the tool takes for complete is complete if in each round
the next object fits wherever the largest object would. If the objects are in order and
`compute_space` covers them, this is also necessary. -/
theorem complete_iff (kind : ListKind) (r : Ranges) (s : Dn) (ks : ℕ → Dn) :
    (Roomy kind r s ks → Complete kind r s ks) ∧
      (r.length < 8191 → (∀ i, Tidy kind r (ks i)) → Complete kind r s ks →
        Roomy kind r s ks) := by
  unfold Complete dummynetList
  constructor
  · intro hroomy i x hok
    cases hfirst : firstBuflen kind r s with
    | none =>
      rw [hfirst] at hok
      cases hok
    | some b =>
      rw [hfirst] at hok
      exact listLoop_complete hroomy.1 (hroomy.2 b hfirst) hok
  · intro hr ht hall
    refine ⟨hr, fun b hfirst => ?_⟩
    rw [hfirst] at hall
    exact listLoop_fits hr (firstBuflen_lt hfirst) ht hall

/-- A scheduler, and then a second one. -/
def grown : Option (Dn × Dn) := do
  let (_, s) ← configSched (Dn.init {} [.fifo, .wf2qp, .rr]) (schedOne 1)
  let (_, t) ← configSched s { schedOne 1 with schedNr := 2 }
  pure (s, t)

theorem grown_spec {s t : Dn} (h : grown = some (s, t)) :
    Dn.Reach {} [.fifo, .wf2qp, .rr] s ∧ Dn.Reach {} [.fifo, .wf2qp, .rr] t := by
  unfold grown at h
  obtain ⟨⟨e, s'⟩, hs, h⟩ := Option.bind_eq_some_iff.1 h
  obtain ⟨⟨e', t'⟩, ht, h⟩ := Option.bind_eq_some_iff.1 h
  obtain ⟨rfl, rfl⟩ := by simpa using Option.some.inj h
  have hreach : Dn.Reach {} [.fifo, .wf2qp, .rr] s' := .object (o := .sch (schedOne 1)) .init hs
  exact ⟨hreach, .object (o := .sch { schedOne 1 with schedNr := 2 }) hreach ht⟩

/-- A second scheduler comes between the two calls: its objects do not fit, the answer has none, and
is taken for complete. -/
theorem not_complete : ¬ ∀ (parms : DnParms) (schedlist : List SchedType) (kind : ListKind)
    (r : Ranges) (s : Dn) (ks : ℕ → Dn), Dn.Reach parms schedlist s →
    (∀ i, Dn.Reach parms schedlist (ks i)) → Complete kind r s ks := by
  intro hclaim
  have hexec : grown.any (fun x => match dummynetList .sch [] x.1 (fun _ => x.2) with
      | .ok _ l => l.isEmpty && !(selected .sch (asked .sch []) x.2).isEmpty
      | _ => false) = true := by decide +kernel
  obtain ⟨⟨s, t⟩, h, hall⟩ := (Option.any_eq_true _ _).1 hexec
  obtain ⟨hs, ht⟩ := grown_spec h
  dsimp only at hall
  split at hall
  · next i l hok =>
    rw [Bool.and_eq_true, List.isEmpty_iff] at hall
    obtain ⟨rfl, hne⟩ := hall
    have hcomplete := hclaim _ _ .sch [] s (fun _ => t) hs (fun _ => ht) i [] hok
    rw [← hcomplete] at hne
    cases hne
  · cases hall

end Dummynet.Get
