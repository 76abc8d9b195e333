import DeepNF.ActionTable
import DeepNF.MergeSpec

/-!
# Two network functions in parallel

A `Behaviour` is what a network function does to a packet: it rewrites it, and it may drop it, which
makes it a null packet. `Conforms` ties a behaviour to its row of the action table. If
`isParallelizable` finds no conflict between two rows, then merging what two conforming functions make
of a packet is as good as running one after the other (`resolvePacketConflict_parallel`): the merge
is null exactly if the sequence drops the packet, and else it has all its fields, a payload that the minor has
written if nothing is read behind it. In a null packet the fields that the minor may write can differ
(`resolvePacketConflict_dropped`).
-/

namespace DeepNF
open Std (TreeMap)

structure Behaviour where
  rewrite : Packet → Packet
  drops : Packet → Bool

def Behaviour.run (b : Behaviour) (p : Packet) : Packet :=
  if b.drops p then (b.rewrite p).nullify else b.rewrite p

def Row.AgreeOnReads (row : Row) (p q : Packet) : Prop := ∀ F, row.reads F → p.value F = q.value F

/-- A behaviour conforms to its row: it changes marked fields only, it drops only if the row says so,
and what it writes and drops depends on nothing but the fields it reads. A marked field may also be
left as it is. -/
structure Conforms (row : Row) (b : Behaviour) : Prop where
  ipId : ∀ p, (b.rewrite p).ipId = p.ipId
  unmarked : ∀ p F, ¬ row.writes F → (b.rewrite p).value F = p.value F
  drop : ∀ p, b.drops p = true → row.drops
  drop_congr : ∀ p q, row.AgreeOnReads p q → b.drops p = b.drops q
  written_congr : ∀ p q F, row.AgreeOnReads p q → row.writes F →
    (b.rewrite p).value F = (b.rewrite q).value F ∨
      (b.rewrite p).value F = p.value F ∧ (b.rewrite q).value F = q.value F

/-! ### Packets that are told apart by their fields -/

section
variable {p q : Packet}

theorem Packet.ipSrc_eq_of_value (h : p.value .SIP = q.value .SIP) : p.ipSrc = q.ipSrc := by
  simp only [Packet.value, Value.ip.injEq, Packet.getSrcIp] at h
  exact inetNtop_inj h

theorem Packet.source_eq_of_value (h : p.value .SPORT = q.value .SPORT) : p.source = q.source := by
  simp only [Packet.value, Value.port.injEq, Packet.getSrcPort] at h
  exact ntohs_inj h

theorem Packet.isNull_eq_of_value (hi : p.value .SIP = q.value .SIP) (hs : p.value .SPORT = q.value .SPORT) :
    p.isNull = q.isNull :=
  Packet.isNull_congr (Packet.source_eq_of_value hs) (Packet.ipSrc_eq_of_value hi)

theorem Packet.value_nullify {F : Field} (hi : F ≠ .SIP) (hs : F ≠ .SPORT) :
    p.nullify.value F = p.value F := by
  cases F <;> simp_all [Packet.value, Packet.getDestIp, Packet.getDestPort, Packet.payload]

theorem Packet.value_nullify_congr {F : Field} (h : F = .SIP ∨ F = .SPORT ∨ p.value F = q.value F) :
    p.nullify.value F = q.nullify.value F := by
  cases F <;> simp_all [Packet.value, Packet.getSrcIp, Packet.getSrcPort, Packet.getDestIp,
    Packet.getDestPort, Packet.payload]

end

/-! ### The rows -/

section
variable {row row1 row2 : Row} {b : Behaviour} {p : Packet}

def Row.Carried (row : Row) : Prop := ∀ F, row.writes F → F ∈ Field.carried

theorem Row.Carried.not_SIP (h : row.Carried) : ¬ row.writes .SIP := fun hw => absurd (h _ hw) (by decide)

theorem Row.Carried.not_SPORT (h : row.Carried) : ¬ row.writes .SPORT := fun hw => absurd (h _ hw) (by decide)

theorem Conforms.isNull_rewrite (hb : Conforms row b) (hc : row.Carried) :
    (b.rewrite p).isNull = p.isNull :=
  Packet.isNull_eq_of_value (hb.unmarked p _ hc.not_SIP) (hb.unmarked p _ hc.not_SPORT)

theorem Conforms.isNull_run (hb : Conforms row b) (hc : row.Carried) (hp : p.isNull = false) :
    (b.run p).isNull = b.drops p := by
  unfold Behaviour.run
  split
  · simp [*]
  · rw [hb.isNull_rewrite hc, hp]
    simpa using (‹¬ b.drops p = true› : ¬ b.drops p = true)

/-- No field is written by one of the rows and touched by the other. -/
structure Row.Apart (row1 row2 : Row) : Prop where
  left : ∀ F, row1.writes F → ¬ row2.reads F ∧ ¬ row2.writes F
  right : ∀ F, row2.writes F → ¬ row1.writes F

theorem Row.not_touched {F : Field} (h : row[F.location]? = some "null") : ¬ row.reads F ∧ ¬ row.writes F := by
  simp [Row.reads, Row.writes, h]

theorem Row.apart (hkeys : ∀ loc, loc ∈ row1 ↔ loc ∈ row2)
    (h : ∀ loc val, row1[loc]? = some val → Independent val (row2.getD loc "")) : row1.Apart row2 := by
  -- with the same keys, the two entries of a marked field are independent
  have hentry : ∀ loc : String, (row1[loc]?.isSome ∨ row2[loc]?.isSome) →
      ∃ val val2 : String, row1[loc]? = some val ∧ row2[loc]? = some val2 ∧ Independent val val2 := by
    intro loc hs
    have hk := hkeys loc
    rw [TreeMap.mem_iff_isSome_getElem?, TreeMap.mem_iff_isSome_getElem?] at hk
    obtain ⟨val, hv⟩ := Option.isSome_iff_exists.mp (hs.elim (fun h => h) hk.mpr)
    obtain ⟨val2, hv2⟩ := Option.isSome_iff_exists.mp (hs.elim hk.mp fun h => h)
    have hind := h loc val hv
    rw [TreeMap.getD_eq_getD_getElem?, hv2] at hind
    exact ⟨val, val2, hv, hv2, hind⟩
  constructor
  · intro F hw
    obtain ⟨val, val2, hv, hv2, hind⟩ := hentry F.location (.inl (by rcases hw with h | h <;> rw [h] <;> rfl))
    rcases hind with rfl | rfl | ⟨rfl, -⟩
    · exact absurd hw (Row.not_touched hv).2
    · exact Row.not_touched hv2
    · simp [Row.writes, hv] at hw
  · intro F hw hw1
    obtain ⟨val, val2, hv, hv2, hind⟩ := hentry F.location (.inr (by rcases hw with h | h <;> rw [h] <;> rfl))
    rcases hind with rfl | rfl | ⟨-, rfl⟩
    · exact absurd hw1 (Row.not_touched hv).2
    · exact absurd hw (Row.not_touched hv2).2
    · simp [Row.writes, hv2] at hw

end

/-! ### The merge of the two packets -/

section
variable {row1 row2 : Row} {b1 b2 : Behaviour} {p : Packet}

theorem Conforms.agreeOnReads (h1 : Conforms row1 b1) (hap : row1.Apart row2) :
    row2.AgreeOnReads p (b1.rewrite p) :=
  fun F hr => (h1.unmarked p F fun hw => (hap.left F hw).1 hr).symm

theorem Conforms.value_rewrite_rewrite (h1 : Conforms row1 b1) (h2 : Conforms row2 b2)
    (hap : row1.Apart row2) (F : Field) :
    (b2.rewrite (b1.rewrite p)).value F =
      if row2.writes F then (b2.rewrite p).value F else (b1.rewrite p).value F := by
  split
  · rename_i hw
    rcases h2.written_congr p (b1.rewrite p) F (h1.agreeOnReads hap) hw with h | ⟨h, h'⟩
    · exact h.symm
    · rw [h, h', h1.unmarked p F (hap.right F hw)]
  · exact h2.unmarked _ F ‹_›

/-- The packet `q` that comes out of the merge stands for the packet `r` of the sequence; `minor` is
the row of the function whose packet was the minor one, and `own` says that its payload has been read alone. -/
structure Stands (minor : Row) (own : Prop) (q r : Packet) : Prop where
  isNull : q.isNull = r.isNull
  ipId : q.ipId = r.ipId
  source : q.ipSrc = r.ipSrc ∧ q.source = r.source
  value : ∀ F, r.isNull = false ∨ ¬ minor.writes F → (F = .PAYLOAD → minor.writes F → own) → q.value F = r.value F

theorem Stands.of_value {minor : Row} {own : Prop} {q r : Packet}
    (h : ∀ F, (F = .PAYLOAD → minor.writes F → own) → q.value F = r.value F) (hid : q.ipId = r.ipId) :
    Stands minor own q r where
  isNull := Packet.isNull_eq_of_value (h _ nofun) (h _ nofun)
  ipId := hid
  source := ⟨Packet.ipSrc_eq_of_value (h _ nofun), Packet.source_eq_of_value (h _ nofun)⟩
  value F _ := h F

theorem Stands.nullify {minor : Row} {own : Prop} {q r : Packet} (hid : q.ipId = r.ipId)
    (h : ∀ F, ¬ minor.writes F → F = .SIP ∨ F = .SPORT ∨ q.value F = r.value F) :
    Stands minor own q.nullify r.nullify where
  isNull := by simp
  ipId := by simp [hid]
  source := by simp
  value F hF _ := Packet.value_nullify_congr (h F (by simpa using hF))

def Behaviour.info (b : Behaviour) (row : Row) (nodeId : Int) (p : Packet) : PacketInfo :=
  { nodeId, pkt := b.run p, writtenFields := row.writtenFields }

theorem resolve_of_null {behind : List UInt8} {a b : PacketInfo} {c : Option ConflictItem}
    (h : a.pkt.isNull = true ∨ b.pkt.isNull = true) :
    (resolvePacketConflict behind a b c).pkt = a.pkt.nullify := by
  have : (a.pkt.isNull || b.pkt.isNull) = true := by simpa using h
  simp [resolvePacketConflict, this]

/-- Neither of the two drops the packet: the merge takes every field from the one that writes it. -/
theorem Conforms.stands_kept (h1 : Conforms row1 b1) (h2 : Conforms row2 b2) (hap : row1.Apart row2)
    (hc1 : row1.Carried) (hc2 : row2.Carried) (hp : p.isNull = false) (hd1 : b1.drops p = false)
    (hd2 : b2.drops p = false) (behind : List UInt8) (i j : Int) (c : Option ConflictItem) :
    Stands row2 ((b2.run p).ReadsOwn behind)
        (resolvePacketConflict behind (b1.info row1 i p) (b2.info row2 j p) c).pkt (b2.rewrite (b1.rewrite p)) ∧
      Stands row1 ((b1.run p).ReadsOwn behind)
        (resolvePacketConflict behind (b2.info row2 j p) (b1.info row1 i p) c).pkt (b2.rewrite (b1.rewrite p)) := by
  have hrun1 : b1.run p = b1.rewrite p := by simp [Behaviour.run, hd1]
  have hrun2 : b2.run p = b2.rewrite p := by simp [Behaviour.run, hd2]
  have ha : (b1.info row1 i p).pkt.isNull = false := (h1.isNull_run hc1 hp).trans hd1
  have hb : (b2.info row2 j p).pkt.isNull = false := (h2.isNull_run hc2 hp).trans hd2
  have hseq := h1.value_rewrite_rewrite h2 hap (p := p)
  constructor
  · refine Stands.of_value (fun F hown => ?_) ?_
    · rw [value_resolve ha hb, hseq]
      simp only [Behaviour.info, Row.mem_writtenFields, hrun1, hrun2] at hown ⊢
      by_cases hw : row2.writes F
      · rw [if_pos ⟨hw, hap.right F hw, hc2 F hw⟩, if_pos hw]
        exact Packet.read_eq_iff.mpr fun hF => hown hF hw
      · simp [hw]
    · rw [(header_resolve ha hb).2.2, Behaviour.info, hrun1, h1.ipId, h2.ipId, h1.ipId]
  · refine Stands.of_value (fun F hown => ?_) ?_
    · rw [value_resolve hb ha, hseq]
      simp only [Behaviour.info, Row.mem_writtenFields, hrun1, hrun2] at hown ⊢
      by_cases hw : row2.writes F
      · simp [hw]
      · by_cases hw1 : row1.writes F
        · rw [if_pos ⟨hw1, hw, hc1 F hw1⟩, if_neg hw]
          exact Packet.read_eq_iff.mpr fun hF => hown hF hw1
        · simp [hw, hw1, h1.unmarked p F hw1, h2.unmarked p F hw]
    · rw [(header_resolve hb ha).2.2, Behaviour.info, hrun2, h2.ipId, h2.ipId, h1.ipId]

/-- The second one drops the packet: the merge is the nullified major, without the minor's writes. -/
theorem Conforms.stands_dropped (h1 : Conforms row1 b1) (h2 : Conforms row2 b2) (hap : row1.Apart row2)
    (hd1 : b1.drops p = false) (hd2 : b2.drops p = true) (behind : List UInt8) (i j : Int)
    (c : Option ConflictItem) :
    Stands row2 ((b2.run p).ReadsOwn behind)
        (resolvePacketConflict behind (b1.info row1 i p) (b2.info row2 j p) c).pkt
        (b2.rewrite (b1.rewrite p)).nullify ∧
      Stands row1 ((b1.run p).ReadsOwn behind)
        (resolvePacketConflict behind (b2.info row2 j p) (b1.info row1 i p) c).pkt
        (b2.rewrite (b1.rewrite p)).nullify := by
  have hrun1 : b1.run p = b1.rewrite p := by simp [Behaviour.run, hd1]
  have hrun2 : b2.run p = (b2.rewrite p).nullify := by simp [Behaviour.run, hd2]
  have hb : (b2.info row2 j p).pkt.isNull = true := by simp [Behaviour.info, hrun2]
  have hseq := h1.value_rewrite_rewrite h2 hap (p := p)
  rw [resolve_of_null (.inr hb), resolve_of_null (.inl hb)]
  simp only [Behaviour.info, hrun1, hrun2]
  constructor
  · refine Stands.nullify (by rw [h1.ipId, h2.ipId, h1.ipId]) fun F hw => .inr (.inr ?_)
    rw [hseq, if_neg hw]
  · refine Stands.nullify (by rw [Packet.ipId_nullify, h2.ipId, h2.ipId, h1.ipId]) fun F hw => ?_
    by_cases hi : F = .SIP
    · exact .inl hi
    by_cases hs : F = .SPORT
    · exact .inr (.inl hs)
    refine .inr (.inr ?_)
    rw [Packet.value_nullify hi hs, hseq]
    split
    · rfl
    · rw [h1.unmarked p F hw, h2.unmarked p F ‹_›]

/-- Two functions that `isParallelizable` finds without conflict can run in parallel: whichever of the
two packets is the major, the merge stands for the packet that has gone through one after the other. -/
theorem resolvePacketConflict_parallel {actionTable : ActionTable} {nf1 nf2 : String}
    (hrow1 : actionTable[nf1]? = some row1) (hrow2 : actionTable[nf2]? = some row2)
    (hkeys : ∀ loc, loc ∈ row1 ↔ loc ∈ row2) (hc1 : row1.Carried) (hc2 : row2.Carried)
    (hpar : isParallelizable actionTable nf1 nf2 = .ok (true, []))
    (h1 : Conforms row1 b1) (h2 : Conforms row2 b2) (hp : p.isNull = false) (behind : List UInt8) (i j : Int)
    (c : Option ConflictItem) :
    Stands row2 ((b2.run p).ReadsOwn behind)
        (resolvePacketConflict behind (b1.info row1 i p) (b2.info row2 j p) c).pkt (b2.run (b1.run p)) ∧
      Stands row1 ((b1.run p).ReadsOwn behind)
        (resolvePacketConflict behind (b2.info row2 j p) (b1.info row1 i p) c).pkt (b2.run (b1.run p)) := by
  obtain ⟨hnd, hind⟩ := isParallelizable_nil hrow1 hrow2 hpar
  have hap := Row.apart hkeys hind
  -- a first function that may drop packets is a conflict
  have hd1 : b1.drops p = false := by
    cases h : b1.drops p
    exacts [rfl, absurd (h1.drop p h) hnd]
  have hdrop : b2.drops (b1.rewrite p) = b2.drops p := (h2.drop_congr _ _ (h1.agreeOnReads hap)).symm
  cases hd2 : b2.drops p with
  | false =>
    have hrun : b2.run (b1.run p) = b2.rewrite (b1.rewrite p) := by
      simp [Behaviour.run, hd1, hdrop, hd2]
    rw [hrun]
    exact h1.stands_kept h2 hap hc1 hc2 hp hd1 hd2 behind i j c
  | true =>
    have hrun : b2.run (b1.run p) = (b2.rewrite (b1.rewrite p)).nullify := by
      simp [Behaviour.run, hd1, hdrop, hd2]
    rw [hrun]
    exact h1.stands_dropped h2 hap hd1 hd2 behind i j c

end

/-! ### A dropped packet -/

def compress : Behaviour := ⟨fun p => p.writePayload [120], fun _ => false⟩

def block : Behaviour := ⟨fun p => p, fun _ => true⟩

def compressorRow : Row := actionTableJson.getD "compressor" ∅

def iptablesRow : Row := actionTableJson.getD "iptables" ∅

theorem conforms_compress : Conforms compressorRow compress where
  ipId _ := by simp [compress]
  unmarked p F hF := by
    have : F ≠ .PAYLOAD := by rintro rfl; exact hF (by decide)
    cases F <;> simp_all [compress, Packet.value, Packet.getSrcIp, Packet.getSrcPort, Packet.getDestIp,
      Packet.getDestPort]
  drop _ h := by cases h
  drop_congr _ _ _ := rfl
  written_congr p q F _ hF := by
    have hpayload : ∀ F, compressorRow.writes F → F = .PAYLOAD := by decide
    rw [hpayload F hF]
    exact .inl (by simp only [compress, Packet.value, Packet.payload, Packet.data_writePayload])

theorem conforms_block : Conforms iptablesRow block where
  ipId _ := rfl
  unmarked _ _ _ := rfl
  drop _ _ := by unfold Row.drops; decide
  drop_congr _ _ _ := rfl
  written_congr _ _ _ _ _ := .inr ⟨rfl, rfl⟩

theorem resolvePacketConflict_parallel_block :
    (resolvePacketConflict [65] (compress.info compressorRow 0 hello)
      (block.info iptablesRow 1 hello) none).pkt.isNull =
      (block.run (compress.run hello)).isNull := by
  have hrow1 : actionTableJson["compressor"]? = some compressorRow :=
    TreeMap.getElem?_eq_some_getD (by decide)
  have hrow2 : actionTableJson["iptables"]? = some iptablesRow :=
    TreeMap.getElem?_eq_some_getD (by decide)
  have hkeys : compressorRow.keys = iptablesRow.keys := by decide
  exact (resolvePacketConflict_parallel hrow1 hrow2
    (fun loc => by rw [← TreeMap.mem_keys, ← TreeMap.mem_keys, hkeys])
    (by unfold Row.Carried; decide) (by unfold Row.Carried; decide) (by decide)
    conforms_compress conforms_block (by decide) [65] 0 1 none).1.isNull

/-- The firewall's packet as the major: the merge is a null packet, but not with the payload that the
dropped packet of the sequence has. -/
theorem resolvePacketConflict_dropped :
    isParallelizable actionTableJson "compressor" "iptables" = .ok (true, []) ∧
      Conforms compressorRow compress ∧ Conforms iptablesRow block ∧ hello.isNull = false ∧
      (resolvePacketConflict [] (block.info iptablesRow 1 hello) (compress.info compressorRow 0 hello)
        none).pkt.payload ≠ (block.run (compress.run hello)).payload :=
  ⟨by decide, conforms_compress, conforms_block, by decide, by decide⟩

end DeepNF
