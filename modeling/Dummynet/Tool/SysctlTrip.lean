import Dummynet.Tool.Sysctl

/-!
# Reading and writing a sysctl variable

The module reserves a head behind the entries of a reply, but does not write it. The loop of
`sysctlbyname` ends there only if the memory was zero before. A get of a name that is not in the
table returns 0 without data, and a message of more than 12000 bytes is not looked at.

## Main definitions

* `IsRecord`: the bytes of an entry in a reply.
* `RoundTrip`: what a get and a set of a name are to do.
* `TripOk`: when they do it.

## Main results

* `sysctlReply_eq`: the reply, with the initial bytes at its end.
* `sysctlGet_registered`, `sysctlGet_unknown`, `sysctlSet_eq`: the calls.
* `roundTrip_iff`: `RoundTrip` holds if and only if `TripOk` does.
-/

namespace Dummynet.Tool

variable {buf : List (BitVec 8)} {p : ℕ} {e : SysctlEntry}

/-! ### The records of a reply -/

/-- The bytes of a `struct sysctlhead`. -/
def headBytes (blocklen namelen flags datalen : ℕ) : List (BitVec 8) :=
  Buffer.bytesOf 4 blocklen ++ Buffer.bytesOf 4 namelen ++ Buffer.bytesOf 4 flags ++
    Buffer.bytesOf 4 datalen

@[simp]
theorem length_headBytes (a b c d : ℕ) : (headBytes a b c d).length = 16 := by
  simp [headBytes]

/-- A list of at least `n` elements begins with `n` elements. -/
theorem exists_append_of_le {α : Type} {l : List α} {n : ℕ} (h : n ≤ l.length) :
    ∃ a b, l = a ++ b ∧ a.length = n :=
  ⟨l.take n, l.drop n, (List.take_append_drop n l).symm, List.length_take_of_le h⟩

theorem writeHead_append {old : List (BitVec 8)} (h : old.length = 16) (a b c d : ℕ)
    (pre post : List (BitVec 8)) :
    writeHead (pre ++ old ++ post) pre.length a b c d =
      some (pre ++ headBytes a b c d ++ post) := by
  obtain ⟨o1, r1, rfl, h1⟩ := exists_append_of_le (show 4 ≤ old.length by omega)
  rw [List.length_append] at h
  obtain ⟨o2, r2, rfl, h2⟩ := exists_append_of_le (show 4 ≤ r1.length by omega)
  rw [List.length_append] at h
  obtain ⟨o3, o4, rfl, h3⟩ := exists_append_of_le (show 4 ≤ r2.length by omega)
  rw [List.length_append] at h
  have w1 := Buffer.write_append (show o1.length = (Buffer.bytesOf 4 a).length by simpa using h1)
    pre (o2 ++ (o3 ++ o4) ++ post)
  have w2 := Buffer.write_append (show o2.length = (Buffer.bytesOf 4 b).length by simpa using h2)
    (pre ++ Buffer.bytesOf 4 a) (o3 ++ o4 ++ post)
  have w3 := Buffer.write_append (show o3.length = (Buffer.bytesOf 4 c).length by simpa using h3)
    (pre ++ Buffer.bytesOf 4 a ++ Buffer.bytesOf 4 b) (o4 ++ post)
  have w4 := Buffer.write_append
    (show o4.length = (Buffer.bytesOf 4 d).length by rw [Buffer.length_bytesOf]; omega)
    (pre ++ Buffer.bytesOf 4 a ++ Buffer.bytesOf 4 b ++ Buffer.bytesOf 4 c) post
  simp only [List.length_append, Buffer.length_bytesOf, List.append_assoc,
    Nat.reduceAdd] at w1 w2 w3 w4
  simp only [writeHead, List.append_assoc, headBytes, w1, w2, w3, w4, Option.bind_eq_bind,
    Option.bind_some]

/-- The bytes of an entry in a reply. Behind the name there may be some that are not written. -/
def IsRecord (e : SysctlEntry) (r : List (BitVec 8)) : Prop :=
  r.length = e.blocklen ∧ ∃ pad, r = headBytes e.blocklen e.namelen e.flags.toNat e.datalen ++
    e.data ++ (e.name.1 ++ [0]) ++ pad

theorem le_blocklen (e : SysctlEntry) : sysctlheadSizeof + e.namelen + e.datalen ≤ e.blocklen := by
  rw [SysctlEntry.blocklen, roundUp4]
  omega

theorem blocklen_pos (e : SysctlEntry) : 0 < e.blocklen := by
  have := le_blocklen e
  rw [sysctlheadSizeof] at this
  omega

/-- The loop writes the entries one behind the other. -/
theorem emuGetLoop_eq (es : List SysctlEntry) (pre post : List (BitVec 8))
    {old : List (BitVec 8)} (hold : old.length = totalsize es) :
    ∃ rs, List.Forall₂ IsRecord es rs ∧
      emuGetLoop es (pre ++ old ++ post) pre.length = some (pre ++ rs.flatten ++ post) := by
  induction es generalizing pre old with
  | nil =>
    obtain rfl := List.length_eq_zero_iff.1 hold
    exact ⟨[], .nil, rfl⟩
  | cons e es ih =>
    have hle := le_blocklen e
    have htotal : totalsize (e :: es) = e.blocklen + totalsize es := rfl
    rw [htotal] at hold
    -- The old bytes of the entry: head, data, name, and the rest.
    obtain ⟨o, old', rfl, ho⟩ := exists_append_of_le (show e.blocklen ≤ old.length by omega)
    rw [List.length_append, ho] at hold
    obtain ⟨o1, o', rfl, h1⟩ := exists_append_of_le
      (show sysctlheadSizeof ≤ o.length by omega)
    rw [List.length_append] at ho
    obtain ⟨o2, o', rfl, h2⟩ := exists_append_of_le (show e.datalen ≤ o'.length by omega)
    rw [List.length_append] at ho
    obtain ⟨o3, pad, rfl, h3⟩ := exists_append_of_le (show e.namelen ≤ o'.length by omega)
    rw [List.length_append] at ho
    set hd := headBytes e.blocklen e.namelen e.flags.toNat e.datalen with hhd
    have w1 := writeHead_append h1 e.blocklen e.namelen e.flags.toNat e.datalen pre
      (o2 ++ (o3 ++ pad) ++ old' ++ post)
    have w2 := Buffer.write_append (show o2.length = e.data.length from h2) (pre ++ hd)
      (o3 ++ pad ++ old' ++ post)
    have w3 := Buffer.write_append
      (show o3.length = (e.name.1 ++ [0]).length by rw [h3, List.length_append]; rfl)
      (pre ++ hd ++ e.data) (pad ++ old' ++ post)
    have hlen : (hd ++ e.data ++ (e.name.1 ++ [0]) ++ pad).length = e.blocklen := by
      simp only [hhd, List.length_append, length_headBytes, List.length_singleton]
      rw [sysctlheadSizeof] at h1
      rw [SysctlEntry.datalen] at h2
      rw [SysctlEntry.namelen] at h3
      omega
    obtain ⟨rs, hrs, hloop⟩ := ih (pre ++ (hd ++ e.data ++ (e.name.1 ++ [0]) ++ pad))
      (show old'.length = _ by omega)
    refine ⟨_ :: rs, .cons ⟨hlen, pad, rfl⟩ hrs, ?_⟩
    have hpre : (pre ++ hd).length = pre.length + sysctlheadSizeof := by
      rw [List.length_append, hhd, length_headBytes, sysctlheadSizeof]
    have hdata : (pre ++ hd ++ e.data).length = pre.length + sysctlheadSizeof + e.data.length := by
      rw [List.length_append, hpre]
    have hall : (pre ++ (hd ++ e.data ++ (e.name.1 ++ [0]) ++ pad)).length =
        pre.length + e.blocklen := by
      rw [List.length_append, hlen]
    rw [hall] at hloop
    rw [hpre] at w2
    rw [hdata] at w3
    change Buffer.write _ (pre.length + sysctlheadSizeof + e.datalen) _ = _ at w3
    rw [emuGetLoop]
    simp only [← hhd, List.append_assoc, List.flatten_cons] at w1 w2 w3 hloop ⊢
    simp only [w1, w2, w3, hloop, Option.bind_eq_bind, Option.bind_some]

/-! ### Reading a record -/

/-- A string in the buffer is compared. -/
theorem strcmpEq_eq {s : List (BitVec 8)} (hs : 0 ∉ s) {name l : List (BitVec 8)} (hname : 0 ∉ name)
    (h : Buffer.At buf p (s ++ [0] ++ l)) : strcmpEq name buf p = some (decide (name = s)) := by
  have hread : ∀ {p} {b : BitVec 8} {l : List (BitVec 8)}, Buffer.At buf p ([b] ++ l) →
      Buffer.read buf p 1 = some b.toNat := fun {p b l} h => by
    have := h.read (k := 0) (n := 1) (by simp)
    simpa [Buffer.field, Buffer.le] using this
  induction name generalizing s p with
  | nil =>
    cases s with
    | nil =>
      rw [List.nil_append] at h
      simp [strcmpEq, hread h]
    | cons b s =>
      have hb : b ≠ 0 := fun hb => hs (by simp [hb])
      rw [List.cons_append, List.cons_append, ← List.singleton_append] at h
      have hne : ¬ b.toNat = 0 := fun h0 => hb (BitVec.eq_of_toNat_eq h0)
      simp [strcmpEq, hread h, hne]
  | cons c name ih =>
    have hc : c ≠ 0 := fun hc => hname (by simp [hc])
    cases s with
    | nil =>
      rw [List.nil_append] at h
      have hne : ¬ (0 : BitVec 8).toNat = c.toNat := fun h0 => hc (BitVec.eq_of_toNat_eq h0.symm)
      simp only [strcmpEq, hread h, Option.bind_eq_bind, Option.bind_some, if_neg hne]
      simp
    | cons b s =>
      rw [List.cons_append, List.cons_append, ← List.singleton_append] at h
      by_cases hbc : b = c
      · subst hbc
        have hrest := ih (s := s) (fun h0 => hs (List.mem_cons_of_mem _ h0))
          (fun h0 => hname (List.mem_cons_of_mem _ h0)) h.advance
        rw [List.length_singleton] at hrest
        simp [strcmpEq, hread h, hrest]
      · have hne : ¬ b.toNat = c.toNat := fun h0 => hbc (BitVec.eq_of_toNat_eq h0)
        simp only [strcmpEq, hread h, Option.bind_eq_bind, Option.bind_some, if_neg hne]
        simp [Ne.symm hbc]

namespace IsRecord

variable {r l : List (BitVec 8)}

theorem read_blocklen (hr : IsRecord e r) (hlt : e.blocklen < 2 ^ 32)
    (h : Buffer.At buf p (r ++ l)) : Buffer.read buf p 4 = some e.blocklen := by
  obtain ⟨-, pad, rfl⟩ := hr
  simp only [headBytes, List.append_assoc] at h
  exact h.read_bytesOf (by norm_num at hlt ⊢; exact hlt)

theorem read_datalen (hr : IsRecord e r) (hlt : e.blocklen < 2 ^ 32)
    (h : Buffer.At buf p (r ++ l)) : Buffer.read buf (p + 12) 4 = some e.datalen := by
  have hle := le_blocklen e
  obtain ⟨-, pad, rfl⟩ := hr
  simp only [headBytes, List.append_assoc] at h
  have hdatalen := h.advance.advance.advance
  simp only [Buffer.length_bytesOf] at hdatalen
  exact hdatalen.read_bytesOf (by norm_num at hlt ⊢; omega)

/-- The record behind its head. -/
theorem at_data (hr : IsRecord e r) (h : Buffer.At buf p (r ++ l)) :
    ∃ l, Buffer.At buf (p + sysctlheadSizeof) (e.data ++ (e.name.1 ++ [0] ++ l)) := by
  obtain ⟨-, pad, rfl⟩ := hr
  refine ⟨pad ++ l, ?_⟩
  simp only [List.append_assoc] at h ⊢
  have hdata := h.advance
  rw [length_headBytes] at hdata
  exact hdata

theorem slice_data (hr : IsRecord e r) (h : Buffer.At buf p (r ++ l)) :
    Buffer.slice buf (p + sysctlheadSizeof) e.datalen = some e.data := by
  obtain ⟨l, hl⟩ := hr.at_data h
  exact hl.slice_all

theorem strcmpEq_name (hr : IsRecord e r) (h : Buffer.At buf p (r ++ l)) (name : CString) :
    strcmpEq name.1 buf (p + sysctlheadSizeof + e.datalen) = some (decide (name = e.name)) := by
  obtain ⟨l, hl⟩ := hr.at_data h
  rw [SysctlEntry.datalen, strcmpEq_eq e.name.2 name.2 hl.advance]
  simp only [Subtype.ext_iff]

/-- The comparison of an entry with the name. -/
theorem compareEntry_eq (hr : IsRecord e r) (hlt : e.blocklen < 2 ^ 32)
    (h : Buffer.At buf p (r ++ l)) (name : CString) (oldlen : ℕ) :
    compareEntry buf name oldlen p = some (if name = e.name then
      some (if oldlen < e.datalen then .failed else .copied e.data) else none) := by
  simp only [compareEntry, hr.read_datalen hlt h, hr.strcmpEq_name h, Option.bind_eq_bind,
    Option.bind_some]
  by_cases hn : name = e.name
  · by_cases ho : oldlen < e.datalen
    · simp [hn, ho]
    · simp [hn, ho, hr.slice_data h]
  · simp [hn]

end IsRecord

/-! ### The loop over a reply -/

/-- The addresses of the entries of a reply. -/
def offsets : List SysctlEntry → ℕ → List ℕ
  | [], _ => []
  | e :: es, p => p :: offsets es (p + e.blocklen)

theorem blocklen_le_totalsize {es : List SysctlEntry} (he : e ∈ es) :
    e.blocklen ≤ totalsize es :=
  List.single_le_sum (fun _ _ => Nat.zero_le _) _ (List.mem_map_of_mem he)

/-- The loop goes over entries that do not end it. -/
theorem walk_records {ρ : Type} {body : ℕ → Option (Option ρ)} {es : List SysctlEntry}
    {rs : List (List (BitVec 8))} (hrs : List.Forall₂ IsRecord es rs)
    (hlt : ∀ e ∈ es, e.blocklen < 2 ^ 32) {l : List (BitVec 8)}
    (hbody : ∀ e ∈ es, ∀ r p l, IsRecord e r → Buffer.At buf p (r ++ l) → body p = some none)
    (h : Buffer.At buf p (rs.flatten ++ l)) (fuel : ℕ) :
    walk body buf (fuel + es.length) p = (walk body buf fuel (p + totalsize es)).map
      fun s => (offsets es p ++ s.1, s.2) := by
  induction hrs generalizing p with
  | nil => simp [totalsize, offsets]
  | @cons e r es rs hr _ ih =>
    rw [List.flatten_cons, List.append_assoc] at h
    have hpos := blocklen_pos e
    have hnext := ih (fun e' he' => hlt e' (List.mem_cons_of_mem _ he'))
      (fun e' he' => hbody e' (List.mem_cons_of_mem _ he')) (hr.1 ▸ h.advance)
    have htotal : totalsize (e :: es) = e.blocklen + totalsize es := rfl
    rw [List.length_cons, ← Nat.add_assoc, walk, hr.read_blocklen (hlt e List.mem_cons_self) h]
    simp only [Option.bind_eq_bind, Option.bind_some, if_neg hpos.ne',
      hbody e List.mem_cons_self r p _ hr h, hnext, htotal, Nat.add_assoc]
    cases walk body buf fuel (p + (e.blocklen + totalsize es)) <;> rfl

/-! ### The reply -/

section Reply

variable {es : List SysctlEntry} {content : ℕ → BitVec 8}

@[simp]
theorem length_mallocBytes (l : ℕ) : (mallocBytes content l).length = l := by
  simp [mallocBytes]

/-- The bytes of a `struct dn_id`, of which one is not written. -/
def dnIdBytes (len type : ℕ) (b : BitVec 8) : List (BitVec 8) :=
  Buffer.bytesOf 2 len ++ Buffer.bytesOf 1 type ++ [b] ++ Buffer.bytesOf 4 dnApiVersion

@[simp]
theorem length_dnIdBytes (len type : ℕ) (b : BitVec 8) :
    (dnIdBytes len type b).length = dnIdSizeof := by
  simp [dnIdBytes, dnIdSizeof]

theorem writeDnId_eq (len type : ℕ) (h : dnIdSizeof ≤ buf.length) :
    ∃ b, writeDnId buf len type = some (dnIdBytes len type b ++ buf.drop dnIdSizeof) := by
  rw [dnIdSizeof] at h
  obtain ⟨o, rest, rfl, ho⟩ := exists_append_of_le h
  obtain ⟨o1, o', rfl, h1⟩ := exists_append_of_le (show 2 ≤ o.length by omega)
  rw [List.length_append] at ho
  obtain ⟨o2, o', rfl, h2⟩ := exists_append_of_le (show 1 ≤ o'.length by omega)
  rw [List.length_append] at ho
  obtain ⟨o3, o4, rfl, h3⟩ := exists_append_of_le (show 1 ≤ o'.length by omega)
  rw [List.length_append] at ho
  obtain ⟨b, rfl⟩ := List.length_eq_one_iff.1 h3
  have w1 := Buffer.write_append (show o1.length = (Buffer.bytesOf 2 len).length by simpa using h1)
    [] (o2 ++ ([b] ++ o4) ++ rest)
  have w2 := Buffer.write_append (show o2.length = (Buffer.bytesOf 1 type).length by simpa using h2)
    (Buffer.bytesOf 2 len) ([b] ++ o4 ++ rest)
  have w3 := Buffer.write_append
    (show o4.length = (Buffer.bytesOf 4 dnApiVersion).length by
      rw [Buffer.length_bytesOf]; simp only [List.length_singleton] at ho; omega)
    (Buffer.bytesOf 2 len ++ Buffer.bytesOf 1 type ++ [b]) rest
  have hdrop : (o1 ++ (o2 ++ ([b] ++ o4)) ++ rest).drop dnIdSizeof = rest := by
    refine List.drop_left' ?_
    simp only [List.length_append, List.length_singleton, dnIdSizeof] at ho ⊢
    omega
  simp only [List.length_append, Buffer.length_bytesOf, List.append_assoc, List.nil_append,
    List.length_nil, List.length_singleton, Nat.reduceAdd] at w1 w2 w3
  refine ⟨b, ?_⟩
  rw [hdrop]
  simp only [writeDnId, dnIdBytes, List.append_assoc, w1, w2, w3, Option.bind_eq_bind,
    Option.bind_some]

/-- The initial bytes behind the entries. -/
def tailBytes (es : List SysctlEntry) (content : ℕ → BitVec 8) : List (BitVec 8) :=
  (mallocBytes content (sizeneeded es)).drop (dnIdSizeof + totalsize es)

/-- The length of a reply is asked for. -/
theorem probe_eq (hlt : sizeneeded es < 2 ^ 31) (content : ℕ → BitVec 8) :
    ∃ oid oid', writeDnId (mallocBytes content dnIdSizeof) dnIdSizeof dnSysctlGet = some oid ∧
      kesysctlEmuGet es oid = some oid' ∧ Buffer.read oid' 4 4 = some (sizeneeded es) := by
  obtain ⟨b, hoid⟩ := writeDnId_eq dnIdSizeof dnSysctlGet
    (show dnIdSizeof ≤ (mallocBytes content dnIdSizeof).length by simp)
  rw [List.drop_of_length_le (by simp), List.append_nil, dnIdBytes] at hoid
  set hdr := Buffer.bytesOf 2 dnIdSizeof ++ Buffer.bytesOf 1 dnSysctlGet ++ [b] with hhdr
  have hlen : hdr.length = 4 := by simp [hhdr]
  have hw := Buffer.write_append (show (Buffer.bytesOf 4 dnApiVersion).length =
    (Buffer.bytesOf 4 (sizeneeded es)).length by simp) hdr []
  rw [List.append_nil, List.append_nil, hlen] at hw
  have hshort : (hdr ++ Buffer.bytesOf 4 dnApiVersion).length < sizeneeded es := by
    rw [List.length_append, hlen, Buffer.length_bytesOf, sizeneeded, dnIdSizeof, sysctlheadSizeof]
    omega
  have hAt : Buffer.At (hdr ++ Buffer.bytesOf 4 (sizeneeded es)) 4
      (Buffer.bytesOf 4 (sizeneeded es) ++ []) :=
    ⟨by rw [List.length_append, hlen]; omega, by rw [List.append_nil, ← hlen, List.drop_left]⟩
  exact ⟨_, _, hoid, by rw [kesysctlEmuGet, if_pos hshort, hw],
    hAt.read_bytesOf (by norm_num; omega)⟩

theorem length_le_totalsize (es : List SysctlEntry) : es.length ≤ totalsize es := by
  induction es with
  | nil => exact le_rfl
  | cons e es ih =>
    have hpos := blocklen_pos e
    have htotal : totalsize (e :: es) = e.blocklen + totalsize es := rfl
    rw [List.length_cons, htotal]
    omega

theorem length_flatten_records {rs : List (List (BitVec 8))} (hrs : List.Forall₂ IsRecord es rs) :
    rs.flatten.length = totalsize es := by
  induction hrs with
  | nil => rfl
  | @cons e r es rs hr _ ih =>
    have htotal : totalsize (e :: es) = e.blocklen + totalsize es := rfl
    rw [List.flatten_cons, List.length_append, ih, hr.1, htotal]

/-- **The reply** is the table, and behind it what was in the memory before. -/
theorem sysctlReply_eq (hlt : sizeneeded es < 2 ^ 31) (content : ℕ → BitVec 8) :
    ∃ buf rs, sysctlReply es content = some buf ∧ List.Forall₂ IsRecord es rs ∧
      Buffer.At buf dnIdSizeof (rs.flatten ++ tailBytes es content) ∧
      es.length < buf.length := by
  obtain ⟨oid, oid', hoid, hprobe, hl⟩ := probe_eq hlt content
  have hsize : (mallocBytes content (sizeneeded es)).length = sizeneeded es := length_mallocBytes _
  obtain ⟨b, hoid2⟩ := writeDnId_eq (sizeneeded es) dnSysctlGet
    (show dnIdSizeof ≤ (mallocBytes content (sizeneeded es)).length by
      rw [hsize, sizeneeded]; omega)
  set hdr := dnIdBytes (sizeneeded es) dnSysctlGet b with hhdr
  have hlen : hdr.length = dnIdSizeof := length_dnIdBytes _ _ b
  -- The memory behind the header: the place of the entries, and the tail.
  set old := ((mallocBytes content (sizeneeded es)).drop dnIdSizeof).take (totalsize es) with hold
  have holdlen : old.length = totalsize es := by
    rw [hold, List.length_take, List.length_drop, hsize, sizeneeded]
    omega
  have hsplit : (mallocBytes content (sizeneeded es)).drop dnIdSizeof =
      old ++ tailBytes es content := by
    rw [tailBytes, ← List.drop_drop, List.take_append_drop]
  obtain ⟨rs, hrs, hloop⟩ := emuGetLoop_eq es hdr (tailBytes es content) holdlen
  have hfull : ¬ (hdr ++ old ++ tailBytes es content).length < sizeneeded es := by
    rw [List.append_assoc, ← hsplit, List.length_append, List.length_drop, hsize, hlen, sizeneeded]
    omega
  rw [hlen] at hloop
  refine ⟨hdr ++ rs.flatten ++ tailBytes es content, rs, ?_, hrs, ?_, ?_⟩
  · rw [sysctlReply, hoid]
    simp only [Option.bind_eq_bind, Option.bind_some, hprobe, hl, hoid2]
    rw [hsplit, ← List.append_assoc, kesysctlEmuGet, if_neg hfull, hloop]
  · refine ⟨?_, ?_⟩
    · rw [List.append_assoc, List.length_append, hlen]
      omega
    · rw [List.append_assoc, ← hlen, List.drop_left]
  · have hrslen := length_flatten_records hrs
    rw [List.length_append, List.length_append, hlen, hrslen]
    have := length_le_totalsize es
    rw [dnIdSizeof]
    omega

/-- The tail of the reply begins with a zero if the memory did. -/
theorem le_tailBytes (es : List SysctlEntry) (content : ℕ → BitVec 8) :
    Buffer.field (tailBytes es content) 0 4 = 0 ↔
      ∀ k < 4, content (dnIdSizeof + totalsize es + k) = 0 := by
  have htake : (tailBytes es content).take 4 =
      (List.range 4).map fun k => content (dnIdSizeof + totalsize es + k) := by
    refine List.ext_getElem ?_ fun i h1 h2 => ?_
    · simp [tailBytes, sizeneeded, sysctlheadSizeof]
    · simp [tailBytes, mallocBytes]
  have hzero : ∀ l : List (BitVec 8), Buffer.le l = 0 ↔ ∀ b ∈ l, b = 0 := by
    intro l
    induction l with
    | nil => simp [Buffer.le]
    | cons b l ih =>
      change b.toNat + 256 * Buffer.le l = 0 ↔ _
      rw [List.forall_mem_cons, ← ih, ← BitVec.toNat_inj]
      change _ ↔ b.toNat = 0 ∧ _
      omega
  rw [Buffer.field, List.drop_zero, htake, hzero]
  simp

theorem length_tailBytes (es : List SysctlEntry) (content : ℕ → BitVec 8) :
    (tailBytes es content).length = sysctlheadSizeof := by
  rw [tailBytes, List.length_drop, length_mallocBytes, sizeneeded]
  omega

end Reply

/-! ### The calls -/

section Calls

variable {es : List SysctlEntry} {name : CString} {rs : List (List (BitVec 8))}
  {l : List (BitVec 8)} {oldlen : ℕ}

/-- The entry of a name is the first one that has it. -/
def findEntry (es : List SysctlEntry) (name : CString) : Option SysctlEntry :=
  es.find? fun e => name = e.name

/-- The loop finds the first entry of the name. -/
theorem walk_registered (hrs : List.Forall₂ IsRecord es rs) (hlt : ∀ e ∈ es, e.blocklen < 2 ^ 32)
    (h : Buffer.At buf p (rs.flatten ++ l)) (he : findEntry es name = some e) (oldlen fuel : ℕ) :
    ∃ seen, walk (compareEntry buf name oldlen) buf (fuel + es.length) p =
      some (seen, some (if oldlen < e.datalen then .failed else .copied e.data)) := by
  induction hrs generalizing p with
  | nil => exact absurd he (by simp [findEntry])
  | @cons e' r es rs hr _ ih =>
    rw [List.flatten_cons, List.append_assoc] at h
    have hlt' := hlt e' List.mem_cons_self
    have hpos := blocklen_pos e'
    rw [List.length_cons, ← Nat.add_assoc, walk, hr.read_blocklen hlt' h]
    simp only [Option.bind_eq_bind, Option.bind_some, if_neg hpos.ne',
      hr.compareEntry_eq hlt' h]
    rw [findEntry, List.find?_cons] at he
    by_cases hn : name = e'.name
    · obtain rfl : e' = e := by simpa [hn] using he
      exact ⟨[p], by simp [hn]⟩
    · obtain ⟨seen, hseen⟩ := ih (fun e he => hlt e (List.mem_cons_of_mem _ he))
        (hr.1 ▸ h.advance) (by rw [findEntry]; simpa [hn] using he)
      exact ⟨p :: seen, by simp [hn, hseen]⟩

theorem blocklen_lt (hlt : sizeneeded es < 2 ^ 31) : ∀ e ∈ es, e.blocklen < 2 ^ 32 := by
  intro e he
  have := blocklen_le_totalsize he
  rw [sizeneeded] at hlt
  omega

/-- **A get of a name in the table**, whatever was in the memory. -/
theorem sysctlGet_registered (hlt : sizeneeded es < 2 ^ 31) (content : ℕ → BitVec 8)
    (he : findEntry es name = some e) (hold : e.datalen ≤ oldlen) :
    sysctlGet es content name oldlen = some (.copied e.data) := by
  obtain ⟨buf, rs, hreply, hrs, hAt, hlen⟩ := sysctlReply_eq hlt content
  obtain ⟨seen, hwalk⟩ := walk_registered hrs (blocklen_lt hlt) hAt he oldlen
    (buf.length + 1 - es.length)
  rw [Nat.sub_add_cancel (by omega), if_neg (by omega)] at hwalk
  rw [sysctlGet, hreply]
  simp only [Option.bind_eq_bind, Option.bind_some, hwalk]
  rfl

/-- The loop ends behind the entries only at a zero. -/
theorem walk_end {ρ : Type} {body : ℕ → Option (Option ρ)} {content : ℕ → BitVec 8}
    (h : Buffer.At buf p (tailBytes es content)) {fuel : ℕ} {r : Option ρ}
    (hwalk : walk body buf (fuel + 1) p = some ([], r)) :
    ∀ k < 4, content (dnIdSizeof + totalsize es + k) = 0 := by
  rw [← List.append_nil (tailBytes es content)] at h
  have hread := h.read (k := 0) (n := 4) (by rw [length_tailBytes, sysctlheadSizeof]; omega)
  rw [Nat.add_zero] at hread
  rw [← le_tailBytes]
  by_contra hz
  rw [walk, hread] at hwalk
  simp only [Option.bind_eq_bind, Option.bind_some, if_neg hz] at hwalk
  cases hb : body p with
  | none => simp [hb] at hwalk
  | some r' =>
    cases r' with
    | some r' => simp [hb] at hwalk
    | none =>
      cases hw : walk body buf fuel (p + Buffer.field (tailBytes es content) 0 4) with
      | none => simp [hb, hw] at hwalk
      | some s => simp [hb, hw] at hwalk

/-- The loop stops at a zero. -/
theorem walk_zero {ρ : Type} {body : ℕ → Option (Option ρ)} {content : ℕ → BitVec 8}
    (h : Buffer.At buf p (tailBytes es content))
    (hz : ∀ k < 4, content (dnIdSizeof + totalsize es + k) = 0) (fuel : ℕ) :
    walk body buf (fuel + 1) p = some ([], none) := by
  rw [← List.append_nil (tailBytes es content)] at h
  have hread := h.read (k := 0) (n := 4) (by rw [length_tailBytes, sysctlheadSizeof]; omega)
  rw [Nat.add_zero, (le_tailBytes es content).2 hz] at hread
  simp only [walk, hread, Option.bind_eq_bind, Option.bind_some, if_pos]
  rfl

/-- **A get of a name that is not in the table** returns 0. -/
theorem sysctlGet_unknown (hlt : sizeneeded es < 2 ^ 31) {content : ℕ → BitVec 8}
    (hz : ∀ k < 4, content (dnIdSizeof + totalsize es + k) = 0) (he : findEntry es name = none) :
    sysctlGet es content name oldlen = some .nothing := by
  obtain ⟨buf, rs, hreply, hrs, hAt, hlen⟩ := sysctlReply_eq hlt content
  have hbody : ∀ e ∈ es, ∀ r p l, IsRecord e r → Buffer.At buf p (r ++ l) →
      compareEntry buf name oldlen p = some none := by
    intro e hmem r p l hr h
    have hn : name ≠ e.name := by simpa using List.find?_eq_none.1 he e hmem
    rw [hr.compareEntry_eq (blocklen_lt hlt e hmem) h, if_neg hn]
  have hwalk := walk_records hrs (blocklen_lt hlt) hbody hAt (buf.length - es.length + 1)
  have hend := hAt.advance
  rw [length_flatten_records hrs] at hend
  rw [show buf.length - es.length + 1 + es.length = buf.length + 1 by omega,
    walk_zero hend hz] at hwalk
  rw [sysctlGet, hreply]
  simp only [Option.bind_eq_bind, Option.bind_some, hwalk]
  rfl

/-! ### A set -/

variable {val : List (BitVec 8)} {content : ℕ → BitVec 8}

/-- The message with a new value. -/
theorem setMessage_eq (content : ℕ → BitVec 8) (name : CString) (val : List (BitVec 8)) :
    ∃ b, setMessage content (messageLen name val) name val = some
      (dnIdBytes (messageLen name val) dnSysctlSet b ++
        headBytes (roundUp4 (sysctlheadSizeof + (name.1.length + 1) + val.length))
          (name.1.length + 1) 0 val.length ++ val ++ (name.1 ++ [0])) := by
  set L := messageLen name val with hL
  have hsize : (mallocBytes content L).length = L := length_mallocBytes _
  rw [messageLen] at hL
  obtain ⟨b, hoid⟩ := writeDnId_eq L dnSysctlSet
    (show dnIdSizeof ≤ (mallocBytes content L).length by omega)
  set hdr := dnIdBytes L dnSysctlSet b with hhdr
  have hlen : hdr.length = dnIdSizeof := length_dnIdBytes _ _ b
  have hrest : ((mallocBytes content L).drop dnIdSizeof).length = L - dnIdSizeof := by
    rw [List.length_drop, hsize]
  generalize (mallocBytes content L).drop dnIdSizeof = rest at hrest hoid
  obtain ⟨o1, rest, rfl, h1⟩ := exists_append_of_le (show sysctlheadSizeof ≤ rest.length by omega)
  rw [List.length_append] at hrest
  obtain ⟨o2, o3, rfl, h2⟩ := exists_append_of_le (show val.length ≤ rest.length by omega)
  rw [List.length_append] at hrest
  set hd := headBytes (roundUp4 (sysctlheadSizeof + (name.1.length + 1) + val.length))
    (name.1.length + 1) 0 val.length with hhd
  have hhdlen : hd.length = sysctlheadSizeof := length_headBytes _ _ _ _
  have w1 := writeHead_append h1 (roundUp4 (sysctlheadSizeof + (name.1.length + 1) + val.length))
    (name.1.length + 1) 0 val.length hdr (o2 ++ o3)
  have w2 := Buffer.write_append h2 (hdr ++ hd) o3
  have w3 := Buffer.write_append (show o3.length = (name.1 ++ [0]).length by
    rw [List.length_append, List.length_singleton]; omega) (hdr ++ hd ++ val) []
  rw [hlen] at w1
  rw [List.length_append, hlen, hhdlen] at w2
  rw [List.length_append, List.length_append, hlen, hhdlen, List.append_nil, List.append_nil] at w3
  refine ⟨b, ?_⟩
  rw [setMessage, hoid, ← hhdr]
  simp only [← hhd, List.append_assoc] at w1 w2 w3 ⊢
  simp only [Option.bind_eq_bind, Option.bind_some, w1, w2, w3]

/-- A message that does not fit its block. -/
theorem setMessage_none {l : ℕ} (h : l < messageLen name val) :
    setMessage content l name val = none := by
  rw [Option.eq_none_iff_forall_ne_some]
  intro out hout
  simp only [setMessage, writeDnId, writeHead, Option.bind_eq_bind, Option.bind_eq_some_iff] at hout
  obtain ⟨b0, ⟨b1, h1, b2, h2, h3⟩, b4, ⟨b5, h5, b6, h6, b7, h7, h8⟩, b9, h9, h10⟩ := hout
  have hlen : b9.length = l := by
    rw [Buffer.length_write h9, Buffer.length_write h8, Buffer.length_write h7,
      Buffer.length_write h6, Buffer.length_write h5, Buffer.length_write h3,
      Buffer.length_write h2, Buffer.length_write h1, length_mallocBytes]
  rw [Buffer.write, if_neg] at h10
  · cases h10
  · rw [messageLen] at h
    rw [List.length_append, List.length_singleton, hlen]
    omega

/-- What a set does to the variables. -/
def setResult (name : CString) (val : List (BitVec 8)) : List SysctlEntry → ℤ × List SysctlEntry
  | [] => (0, [])
  | e :: es =>
    if name = e.name then
      if val.length ≠ e.datalen ∨ e.flags &&& 3 = ctlflagRd then (-1, e :: es)
      else (0, { e with data := val } :: es)
    else ((setResult name val es).1, e :: (setResult name val es).2)

theorem emuSetLoop_eq {msg : List (BitVec 8)} {pdata pstring : ℕ}
    (hcmp : ∀ s : CString, strcmpEq s.1 msg pstring = some (decide (s = name)))
    (hdata : Buffer.slice msg pdata val.length = some val) (es : List SysctlEntry) :
    emuSetLoop msg pdata pstring val.length es = some (setResult name val es) := by
  induction es with
  | nil => rfl
  | cons e es ih =>
    rw [emuSetLoop, hcmp, setResult, ih]
    by_cases hn : name = e.name
    · by_cases hl : val.length = e.datalen
      · by_cases hf : e.flags &&& 3#32 = ctlflagRd
        · simp [hn, hl, hf]
        · rw [hl] at hdata
          simp [hn, hl, hf, hdata]
      · simp [hn, hl]
    · simp [hn, Ne.symm hn]

/-- The module sets the variable, if the message is not too long. -/
theorem ipDnCtlSet_eq {msg : List (BitVec 8)} (hlt : messageLen name val < 2 ^ 31)
    (hmsg : setMessage content (messageLen name val) name val = some msg) (es : List SysctlEntry) :
    ipDnCtlSet es msg =
      some (if messageLen name val ≤ 12000 then setResult name val es else (0, es)) := by
  obtain ⟨b, hb⟩ := setMessage_eq content name val
  obtain rfl : msg = _ := Option.some.inj (hmsg.symm.trans hb)
  set msg := dnIdBytes (messageLen name val) dnSysctlSet b ++
    headBytes (roundUp4 (sysctlheadSizeof + (name.1.length + 1) + val.length))
      (name.1.length + 1) 0 val.length ++ val ++ (name.1 ++ [0]) with hmsg'
  have hlen : msg.length = messageLen name val := by
    simp only [hmsg', List.length_append, length_dnIdBytes, length_headBytes, List.length_singleton,
      messageLen, sysctlheadSizeof]
    omega
  have hval : val.length < 2 ^ 31 := by
    rw [messageLen] at hlt
    omega
  -- The fields, one behind the other.
  have h0 := Buffer.At.start msg
  nth_rewrite 2 [hmsg'] at h0
  simp only [dnIdBytes, headBytes, List.append_assoc] at h0
  have h2 := h0.advance
  have h3 := h2.advance
  have h4 := h3.advance
  have h8 := h4.advance
  have h20 := h8.advance.advance.advance
  have hdata := h20.advance
  have hname := hdata.advance
  simp only [Buffer.length_bytesOf, List.length_singleton, Nat.reduceAdd] at h2 h4 h20 hdata hname
  by_cases hl : messageLen name val ≤ 12000
  · have hshort : ¬ (msg.length < dnIdSizeof ∨ 12000 < msg.length) := by
      rw [hlen]
      have : dnIdSizeof ≤ messageLen name val := by
        rw [messageLen]
        omega
      omega
    have hlen' : ¬ (messageLen name val < dnIdSizeof ∨ msg.length < messageLen name val) := by
      rw [hlen] at hshort ⊢
      omega
    rw [ipDnCtlSet, if_neg hshort, if_pos hl, doConfigSysctl]
    simp only [h4.read_bytesOf (show dnApiVersion < 256 ^ 4 by decide),
      h0.read_bytesOf (show messageLen name val < 256 ^ 2 by norm_num; omega),
      h2.read_bytesOf (show dnSysctlSet < 256 ^ 1 by decide), Option.bind_eq_bind, Option.bind_some,
      if_neg hlen', ne_eq, not_true_eq_false, if_false]
    have hread : Buffer.read msg (dnIdSizeof + 12) 4 = some val.length :=
      h20.read_bytesOf (by norm_num; omega)
    have hslice : Buffer.slice msg (dnIdSizeof + sysctlheadSizeof) val.length = some val :=
      hdata.slice_all
    rw [kesysctlEmuSet, hread]
    refine emuSetLoop_eq (fun s => ?_) hslice es
    have hcmp := strcmpEq_eq name.2 s.2 (show Buffer.At msg
      (dnIdSizeof + sysctlheadSizeof + val.length) (name.1 ++ [0] ++ []) by
        rw [List.append_nil]; exact hname)
    rw [hcmp]
    simp only [Subtype.ext_iff]
  · rw [ipDnCtlSet, if_pos (by rw [hlen]; omega), if_neg hl]

/-- **A set** returns -1 in any case. -/
theorem sysctlSet_eq (hlt : messageLen name val < 2 ^ 31) (es : List SysctlEntry) :
    sysctlSet es content name val =
      some (-1, if messageLen name val ≤ 12000 then (setResult name val es).2 else es) := by
  obtain ⟨b, hmsg⟩ := setMessage_eq content name val
  have hmod : messageLen name val % 2 ^ 32 = messageLen name val := Nat.mod_eq_of_lt (by omega)
  rw [sysctlSet, hmod]
  simp only [if_neg (not_le.2 hlt), hmsg, ipDnCtlSet_eq hlt hmsg, Option.bind_eq_bind,
    Option.bind_some]
  split_ifs <;> simp

/-- A length that is too large for an `int`. -/
theorem sysctlSet_large (h : 2 ^ 31 ≤ messageLen name val % 2 ^ 32) (es : List SysctlEntry) :
    sysctlSet es content name val = some (-1, es) := by
  simp only [sysctlSet, if_pos h]
  rfl

/-- A length that is truncated. -/
theorem sysctlSet_none (h : messageLen name val % 2 ^ 32 < 2 ^ 31)
    (hlarge : 2 ^ 32 ≤ messageLen name val) (es : List SysctlEntry) :
    sysctlSet es content name val = none := by
  have hlt : messageLen name val % 2 ^ 32 < messageLen name val :=
    (Nat.mod_lt _ (by norm_num)).trans_le hlarge
  simp only [sysctlSet, if_neg (not_le.2 h), setMessage_none hlt, Option.bind_eq_bind,
    Option.bind_none]

/-- A name that is not in the table. -/
theorem setResult_unknown (he : findEntry es name = none) : setResult name val es = (0, es) := by
  induction es with
  | nil => rfl
  | cons e es ih =>
    have hn : name ≠ e.name := by simpa using List.find?_eq_none.1 he e List.mem_cons_self
    rw [findEntry, List.find?_cons_of_neg (by simpa using hn)] at he
    rw [setResult, if_neg hn, ih he]

/-- The first entry of the name decides. -/
theorem setResult_append {before after : List SysctlEntry} (hb : ∀ e ∈ before, name ≠ e.name)
    (he : name = e.name) :
    (setResult name val (before ++ e :: after)).2 = before ++
      (if val.length ≠ e.datalen ∨ e.flags &&& 3 = ctlflagRd then e else { e with data := val }) ::
        after := by
  induction before with
  | nil =>
    rw [List.nil_append, setResult, if_pos he]
    split_ifs <;> rfl
  | cons b before ih =>
    rw [List.cons_append, setResult, if_neg (hb b List.mem_cons_self),
      ih fun e he => hb e (List.mem_cons_of_mem _ he)]
    rfl

theorem findEntry_eq_some (he : findEntry es name = some e) :
    ∃ before after, es = before ++ e :: after ∧ (∀ e ∈ before, name ≠ e.name) ∧ name = e.name := by
  obtain ⟨hn, before, after, rfl, hb⟩ := List.find?_eq_some_iff_append.1 he
  exact ⟨before, after, rfl, fun e he => by simpa using hb e he, by simpa using hn⟩

/-- With a value of the right length the table keeps its size. -/
theorem sizeneeded_set {before after : List SysctlEntry} (hv : val.length = e.datalen) :
    sizeneeded (before ++ { e with data := val } :: after) = sizeneeded (before ++ e :: after) := by
  have hblock : SysctlEntry.blocklen { e with data := val } = e.blocklen := by
    simp only [SysctlEntry.blocklen, SysctlEntry.namelen, SysctlEntry.datalen] at hv ⊢
    rw [hv]
  simp only [sizeneeded, totalsize, List.map_append, List.map_cons, hblock]

end Calls

/-! ### The round trip -/

/-- Every table is built by `sysctl_pushback`. -/
theorem foldlM_pushback (T : Gst) (es : List SysctlEntry) (A : Gst)
    (h : A.entries ++ es = T.entries) : es.foldlM sysctlPushback A = some T := by
  induction es generalizing A with
  | nil =>
    rw [List.append_nil] at h
    cases A
    cases T
    cases h
    rfl
  | cons e es ih =>
    have hcount := T.count_le
    have hsize := T.size_lt
    rw [← h, List.length_append, List.length_cons] at hcount
    have hle : sizeneeded (A.entries ++ [e]) ≤ sizeneeded T.entries := by
      rw [← h]
      simp only [sizeneeded, totalsize, List.map_append, List.sum_append, List.map_cons,
        List.sum_cons, List.map_nil, List.sum_nil]
      omega
    have hfull : ¬ gstHardLimit ≤ A.entries.length := by omega
    have hfit : sizeneeded (A.entries ++ [e]) < 2 ^ 31 := hle.trans_lt hsize
    rw [List.foldlM_cons, sysctlPushback, dif_neg hfull, dif_pos hfit]
    exact ih _ (by rw [List.append_assoc]; exact h)

/-- What a get and a set of a name are to do, for the initial contents of the memory. -/
structure RoundTrip (T : Gst) (content : ℕ → BitVec 8) (name : CString) (val : List (BitVec 8)) :
    Prop where
  walk_eq : ∃ buf, sysctlReply T.entries content = some buf ∧
    walk (fun _ => some (none : Option Unit)) buf (buf.length + 1) dnIdSizeof =
      some (offsets T.entries dnIdSizeof, none)
  get_registered : ∀ e, findEntry T.entries name = some e → ∀ oldlen, 0 < oldlen →
    e.datalen ≤ oldlen → sysctlGet T.entries content name oldlen = some (.copied e.data)
  get_unknown : findEntry T.entries name = none → ∀ oldlen, 0 < oldlen →
    sysctlGet T.entries content name oldlen = some .failed
  set_get : ∀ e, findEntry T.entries name = some e → e.flags &&& 3 ≠ ctlflagRd →
    val.length = e.datalen → ∃ ret es, sysctlSet T.entries content name val = some (ret, es) ∧
      (∃ before after, T.entries = before ++ e :: after ∧ (∀ e ∈ before, name ≠ e.name) ∧
        es = before ++ { e with data := val } :: after) ∧
      ∀ oldlen, 0 < oldlen → e.datalen ≤ oldlen →
        sysctlGet es content name oldlen = some (.copied val)
  set_rejected : (∀ e, findEntry T.entries name = some e →
    e.flags &&& 3 = ctlflagRd ∨ val.length ≠ e.datalen) →
      sysctlSet T.entries content name val = some (-1, T.entries)

/-- The memory behind the entries is zero, and the name is in the table. The message for a set is
not so long that its block is too small; and if the value is one that is stored, then the message
has at most 12000 bytes or the value is the old one. -/
def TripOk (T : Gst) (content : ℕ → BitVec 8) (name : CString) (val : List (BitVec 8)) : Prop :=
  (∀ k < 4, content (dnIdSizeof + totalsize T.entries + k) = 0) ∧
    ∃ e, findEntry T.entries name = some e ∧
      (messageLen name val < 2 ^ 32 ∨ 2 ^ 31 ≤ messageLen name val % 2 ^ 32) ∧
      (e.flags &&& 3 ≠ ctlflagRd → val.length = e.datalen →
        messageLen name val ≤ 12000 ∨ val = e.data)

section Trip

variable {T : Gst} {content : ℕ → BitVec 8} {name : CString} {val : List (BitVec 8)}

/-- The loop ends right behind the entries if and only if the memory was zero. -/
theorem walk_reply_iff :
    (∃ buf, sysctlReply T.entries content = some buf ∧
      walk (fun _ => some (none : Option Unit)) buf (buf.length + 1) dnIdSizeof =
        some (offsets T.entries dnIdSizeof, none)) ↔
    ∀ k < 4, content (dnIdSizeof + totalsize T.entries + k) = 0 := by
  obtain ⟨buf, rs, hreply, hrs, hAt, hlen⟩ := sysctlReply_eq T.size_lt content
  have hwalk := walk_records hrs (blocklen_lt T.size_lt)
    (show ∀ e ∈ T.entries, ∀ r p l, IsRecord e r → Buffer.At buf p (r ++ l) →
      (fun _ => some (none : Option Unit)) p = some none from fun _ _ _ _ _ _ _ => rfl)
    hAt (buf.length - T.entries.length + 1)
  have hend := hAt.advance
  rw [length_flatten_records hrs] at hend
  rw [show buf.length - T.entries.length + 1 + T.entries.length = buf.length + 1 by omega] at hwalk
  constructor
  · rintro ⟨buf', hbuf', hrun⟩
    obtain rfl : buf = buf' := Option.some.inj (hreply.symm.trans hbuf')
    rw [hwalk, Option.map_eq_some_iff] at hrun
    obtain ⟨⟨seen, r⟩, hw, heq⟩ := hrun
    have hseen : seen = [] := by
      simpa using congrArg Prod.fst heq
    subst hseen
    exact walk_end hend hw
  · intro hz
    refine ⟨buf, hreply, ?_⟩
    rw [hwalk, walk_zero hend hz]
    simp

/-- A message for a value of the right length is not too long for an `int`. -/
theorem messageLen_lt {e : SysctlEntry} (he : findEntry T.entries name = some e)
    (hv : val.length = e.datalen) : messageLen name val < 2 ^ 31 := by
  obtain ⟨before, after, hes, -, hn⟩ := findEntry_eq_some he
  have hmem : e ∈ T.entries := by rw [hes]; simp
  have hle := le_blocklen e
  have htotal := blocklen_le_totalsize hmem
  have hsize := T.size_lt
  have hnl : e.namelen = name.1.length + 1 := by rw [hn]; rfl
  rw [sizeneeded, sysctlheadSizeof] at hsize
  rw [sysctlheadSizeof] at hle
  rw [messageLen, sysctlheadSizeof]
  omega

/-- **The round trip** holds if and only if the memory is zero, the name is in the table and the
message is short enough. -/
theorem roundTrip_iff (T : Gst) (content : ℕ → BitVec 8) (name : CString)
    (val : List (BitVec 8)) : RoundTrip T content name val ↔ TripOk T content name val := by
  constructor
  · intro h
    have hz := walk_reply_iff.1 h.walk_eq
    refine ⟨hz, ?_⟩
    cases he : findEntry T.entries name with
    | none =>
      have hfail := h.get_unknown he 1 one_pos
      rw [sysctlGet_unknown T.size_lt hz he] at hfail
      cases hfail
    | some e =>
      refine ⟨e, rfl, ?_, fun hw hv => ?_⟩
      · by_contra hlen
        push Not at hlen
        have hrej : ∀ e', findEntry T.entries name = some e' →
            e'.flags &&& 3 = ctlflagRd ∨ val.length ≠ e'.datalen := fun e' he' =>
          .inr fun hv => by
            have := messageLen_lt he' hv
            omega
        have := h.set_rejected hrej
        rw [sysctlSet_none hlen.2 hlen.1] at this
        cases this
      · by_contra hlen
        push Not at hlen
        obtain ⟨ret, es, hset, ⟨before, after, hes, -, hes'⟩, -⟩ := h.set_get e he hw hv
        rw [sysctlSet_eq (messageLen_lt he hv), if_neg (by omega)] at hset
        have heq : T.entries = es := congrArg Prod.snd (Option.some.inj hset)
        rw [hes, hes'] at heq
        have := (List.cons.inj (List.append_cancel_left heq)).1
        exact hlen.2 (congrArg SysctlEntry.data this).symm
  · rintro ⟨hz, e, he, hlen, hstored⟩
    have hsome : ∀ e', findEntry T.entries name = some e' → e = e' := fun e' he' =>
      Option.some.inj (he.symm.trans he')
    obtain ⟨before, after, hes, hb, hn⟩ := findEntry_eq_some he
    refine ⟨walk_reply_iff.2 hz, fun e' he' oldlen _ hold =>
      sysctlGet_registered T.size_lt content he' hold, fun hnone => ?_, fun e' he' hw hv => ?_,
      fun hrej => ?_⟩
    · rw [he] at hnone
      cases hnone
    · obtain rfl := hsome e' he'
      refine ⟨-1, before ++ { e with data := val } :: after, ?_, ⟨before, after, hes, hb, rfl⟩,
        fun oldlen _ hold => ?_⟩
      · rw [sysctlSet_eq (messageLen_lt he hv)]
        by_cases hl : messageLen name val ≤ 12000
        · rw [if_pos hl, hes, setResult_append hb hn, if_neg (not_or.2 ⟨not_not.2 hv, hw⟩)]
        · obtain rfl : val = e.data := (hstored hw hv).resolve_left hl
          rw [if_neg hl, hes]
      · have hsize : sizeneeded (before ++ { e with data := val } :: after) < 2 ^ 31 := by
          rw [sizeneeded_set hv, ← hes]
          exact T.size_lt
        have hfind : findEntry (before ++ { e with data := val } :: after) name =
            some { e with data := val } :=
          List.find?_eq_some_iff_append.2 ⟨by simpa using hn, before, after, rfl,
            fun e he => by simpa using hb e he⟩
        exact sysctlGet_registered hsize content hfind (show val.length ≤ oldlen by omega)
    · by_cases hlarge : 2 ^ 31 ≤ messageLen name val % 2 ^ 32
      · exact sysctlSet_large hlarge _
      · have hsmall : messageLen name val < 2 ^ 31 := by omega
        rw [sysctlSet_eq hsmall]
        by_cases hl : messageLen name val ≤ 12000
        · rw [if_pos hl, hes, setResult_append hb hn, if_pos (hrej e he).symm]
        · rw [if_neg hl]

end Trip

/-- A table with one variable, of the name `a`. -/
def exampleGst : Gst where
  entries := [⟨⟨[97], by decide⟩, 2, [5, 0, 0, 0]⟩]
  count_le := by decide
  size_lt := by decide

/-- A get of the name `b` does not fail. -/
theorem not_roundTrip : ¬ RoundTrip exampleGst (fun _ => 0) ⟨[98], by decide⟩ [7, 0, 0, 0] := by
  intro h
  have hnone : findEntry exampleGst.entries ⟨[98], by decide⟩ = none := by decide
  have hfail := h.get_unknown hnone 4 (by norm_num)
  rw [sysctlGet_unknown exampleGst.size_lt (fun _ _ => rfl) hnone] at hfail
  cases hfail

end Dummynet.Tool
