import Parqtel.Ingest.Serial

/-!
# Committed logs and spans

For the serial rotator the same ledger as for metrics has a hole. A background flush
whose write fails takes no part in any order of commits: the next flush commits its
own, higher position, and the failed rows, which were only in the WAL, are behind the
commit point. `lost` is that hole. As long as nothing is committed while it is not
empty, every acknowledged row at or below the commit point is in a block file.
-/

namespace Parqtel.Ingest.Serial

open Parqtel.Lib Parqtel.Wal List Option Serial.State Nat WalWriter RowWriter

variable {R : Type*} {sig : Signal R} {s s' : State R} {e : Event R} {wt : R → ℕ}

/-! ## The property -/

def State.ackedUpTo (s : State R) (p : ℕ) : List R :=
  (s.acked.filter fun a => a.1 ≤ p).map Prod.snd

def State.fileRows (s : State R) : List R := s.files.flatMap Block.rows

/-- Every acknowledged row at or below the commit point is in a block file, as often as it was
acknowledged. -/
def State.NoLoss (s : State R) : Prop := (s.ackedUpTo s.dir.commit).Subperm s.fileRows

/-- The guard of a run: positions stay within range, and no flush commits after one whose write
left no block. -/
def commitOk (sig : Signal R) (s : State R) : Event R → Prop
  | .append _ => ∀ c ∈ s.call, ∀ w ∈ s.wal, w.AppendFits (c.rows.map (recordLen sig)).sum
  | .commit _ => s.lost.isEmpty
  | _ => True

instance (sig : Signal R) (s : State R) (e : Event R) : Decidable (commitOk sig s e) := by
  unfold commitOk
  split <;> infer_instance

/-! ## Weights -/

def ackedTotal (wt : R → ℕ) (p : ℕ) (acked : List (ℕ × R)) : ℕ :=
  total (fun a => if a.1 ≤ p then wt a.2 else 0) acked

def owed (wt : R → ℕ) : Option (Call R) → ℕ
  | some ⟨_, .pushing _ done _⟩ | some ⟨_, .closing _ done _ _⟩ | some ⟨_, .dropped _ done _ _⟩ =>
    total wt done
  | _ => 0

def inFlight (wt : R → ℕ) : Option (Flight R) → ℕ
  | some ⟨w, _, _, .encoding⟩ => total wt w.buffer
  | _ => 0

theorem inFlight_dropsNext {f : Flight R} (h : f.phase.dropsNext = true) :
    inFlight wt (some f) = 0 := by
  obtain ⟨w, c, n, ph⟩ := f
  cases ph <;> first | rfl | cases h

def endsOf : Option (Call R) → List ℕ
  | some ⟨_, .logged ends⟩ | some ⟨_, .pushing ends _ _⟩ | some ⟨_, .closing ends _ _ _⟩
  | some ⟨_, .dropped ends _ _ _⟩ => ends
  | _ => []

theorem total_ackedUpTo (s : State R) (p : ℕ) :
    total wt (s.ackedUpTo p) = ackedTotal wt p s.acked := by
  unfold ackedUpTo ackedTotal
  induction s.acked with
  | nil => rfl
  | cons a l ih =>
    by_cases h : a.1 ≤ p
    · simp [h, ih]
    · simp [h, ih]

theorem total_fileRows (s : State R) : total wt s.fileRows = blockTotal wt s.files :=
  total_flatMap _ _ _

theorem ackedTotal_append (p : ℕ) (l l' : List (ℕ × R)) :
    ackedTotal wt p (l ++ l') = ackedTotal wt p l + ackedTotal wt p l' := total_append _ _ _

theorem ackedTotal_le (wt : R → ℕ) (p : ℕ) (l : List (ℕ × R)) :
    ackedTotal wt p l ≤ total (fun a => wt a.2) l :=
  total_le fun a _ => by split_ifs <;> omega

variable {p : ℕ}

theorem ackedTotal_eq_zero {ends : List ℕ} {rows : List R} (h : ∀ q ∈ ends, p < q) :
    ackedTotal wt p (ends.zip rows) = 0 :=
  total_eq_zero fun a ha => by
    have := h a.1 (of_mem_zip ha).1
    rw [if_neg (by omega)]

theorem total_zip {ends : List ℕ} {rows : List R} (h : rows.length ≤ ends.length) :
    total (fun a => wt a.2) (ends.zip rows) = total wt rows := by
  rw [← total_map wt Prod.snd, map_snd_zip h]

/-! ## Positions below the batch under way -/

structure Below (s : State R) (p : ℕ) : Prop where
  le_end : p ≤ s.walEnd
  lt_ends : ∀ q ∈ endsOf s.call, p < q

/-- All acknowledged rows up to `p` are in files, and no later batch gets a position up to `p`. -/
structure Safe (s : State R) (p : ℕ) : Prop where
  below : Below s p
  covered : ∀ wt, ackedTotal wt p s.acked ≤ blockTotal wt s.files

structure Frame (s s' : State R) : Prop where
  wal : s'.wal.isSome
  files : ∀ wt, blockTotal wt s.files ≤ blockTotal wt s'.files
  acked : s'.acked = s.acked ∨ ∃ rows, s'.acked = s.acked ++ (endsOf s.call).zip rows
  walEnd : s.walEnd ≤ s'.walEnd
  ends : ∀ q ∈ endsOf s'.call, q ∈ endsOf s.call ∨ s.walEnd < q

theorem Below.frame (h : Below s p) (hf : Frame s s') : Below s' p :=
  ⟨h.le_end.trans hf.walEnd, fun q hq => (hf.ends q hq).elim (h.lt_ends q) h.le_end.trans_lt⟩

theorem Frame.ackedTotal_eq (hf : Frame s s') (h : Below s p) :
    ackedTotal wt p s'.acked = ackedTotal wt p s.acked := by
  rcases hf.acked with ha | ⟨rows, ha⟩
  · rw [ha]
  · rw [ha, ackedTotal_append, ackedTotal_eq_zero h.lt_ends, add_zero]

theorem Safe.frame (h : Safe s p) (hf : Frame s s') : Safe s' p :=
  ⟨h.below.frame hf, fun wt => by
    rw [hf.ackedTotal_eq h.below]
    exact (h.covered wt).trans (hf.files wt)⟩

theorem Frame.of_call (hw : s.wal.isSome) (hwal : s'.wal = s.wal) (hfiles : s'.files = s.files)
    (hacked : s'.acked = s.acked) (hends : ∀ q ∈ endsOf s'.call, q ∈ endsOf s.call) :
    Frame s s' :=
  ⟨hwal ▸ hw, fun _ => by rw [hfiles], .inl hacked, by simp only [State.walEnd, hwal, le_rfl],
    fun q hq => .inl (hends q hq)⟩

theorem startFlush_frame (hw : s.wal.isSome) (h : s.startFlush = some s') : Frame s s' := by
  rcases startFlush_cases h with ⟨-, rfl⟩ | ⟨-, rfl⟩
  · exact .of_call hw rfl rfl rfl fun _ => id
  · exact .of_call hw rfl rfl rfl fun _ => id

theorem recordLen_pos (sig : Signal R) (rows : List R) :
    ∀ len ∈ rows.map (recordLen sig), 0 < len := by
  intro len hlen
  obtain ⟨r, -, rfl⟩ := mem_map.mp hlen
  exact lt_of_lt_of_le (by decide) (le_add_right 8 _)

theorem append_frame {io : AppendIo} (hw : s.wal.isSome) (hok : commitOk sig s (.append io))
    (h : s.append sig io = some s') : Frame s s' ∧ (s.covered ≤ s.walEnd → s'.covered ≤ s'.walEnd) ∧
      ∀ rows ends, s'.call = some ⟨rows, .logged ends⟩ → ends.length = rows.length := by
  obtain ⟨rows, hc, -, rfl⟩ := append_cases h
  obtain ⟨w, hwal⟩ := isSome_iff_exists.mp hw
  have hfits := hok _ hc w hwal
  obtain ⟨hle, hpos⟩ := appendEncoded_spec io hfits
  have hend : s.walEnd = w.position := by simp [State.walEnd, hwal]
  have hlog : (s.logBatch sig rows io).1 = ((w.appendEncoded (rows.map (recordLen sig)).sum
      io).result.toOption.map fun p => (p, w.recordEnds (rows.map (recordLen sig)))) := by
    simp [logBatch, hwal]
  have hend' : ({ s with
        wal := (s.logBatch sig rows io).2.1
        dir := (s.logBatch sig rows io).2.2
        covered := (s.logBatch sig rows io).1.elim s.covered Prod.fst
        call := (s.logBatch sig rows io).1.map fun r => ⟨rows, .logged r.2⟩ } : State R).walEnd =
      (w.appendEncoded (rows.map (recordLen sig)).sum io).writer.position := by
    simp [State.walEnd, logBatch, hwal]
  refine ⟨⟨by simp [logBatch, hwal], fun _ => le_rfl, .inl rfl, ?_, ?_⟩, fun hcov => ?_, ?_⟩
  · rw [hend', hend]
    exact hle
  · intro q hq
    right
    simp only [hlog] at hq
    cases hr : (w.appendEncoded (rows.map (recordLen sig)).sum io).result with
    | error err => rw [hr] at hq; cases hq
    | ok p =>
      rw [hr] at hq
      rw [hend]
      exact lt_recordEnds hfits (recordLen_pos sig rows) q hq
  · rw [hend']
    simp only [hlog]
    cases hr : (w.appendEncoded (rows.map (recordLen sig)).sum io).result with
    | error err => exact (hend ▸ hcov).trans hle
    | ok p => exact (hpos p (appendEncoded_ok hr)).2
  · intro rows' ends hcall
    simp only [hlog] at hcall
    obtain ⟨r, hr, he⟩ := map_eq_some_iff.mp hcall
    cases he
    obtain ⟨p, -, rfl⟩ := map_eq_some_iff.mp hr
    rw [length_recordEnds, length_map]

theorem step_frame (hw : s.wal.isSome) (hok : commitOk sig s e) (h : step sig s e = some s') :
    Frame s s' := by
  cases e with
  | batch rows =>
    obtain ⟨hc, rfl⟩ := batch_cases h
    refine .of_call hw rfl rfl rfl fun q hq => ?_
    split_ifs at hq <;> cases hq
  | overflowFlush =>
    obtain ⟨rows, hc, h⟩ := overflowFlush_cases h
    have hf := startFlush_frame (s := { s with call := some ⟨rows, .checked⟩ }) hw h
    exact ⟨hf.wal, hf.files, hf.acked.imp_right fun ⟨r, hr⟩ => ⟨r, by rw [hc]; exact hr⟩,
      hf.walEnd, fun q hq => (hf.ends q hq).imp_left nofun⟩
  | append io => exact (append_frame hw hok h).1
  | feed =>
    obtain ⟨rows, ends, hc, rfl⟩ := feed_cases h
    exact .of_call hw rfl rfl rfl fun q hq => by rw [hc]; exact hq
  | pushRow io =>
    obtain ⟨rows, ends, done, r, rest, hc, rfl⟩ := pushRow_cases h
    refine ⟨hw, fun wt => by rw [blockTotal_append]; omega, .inl rfl, le_rfl, fun q hq => .inl ?_⟩
    rw [hc]
    split at hq
    · cases hq
    · exact hq
    · exact hq
  | dropClosed =>
    obtain ⟨rows, ends, done, rest, b, hc, rfl⟩ := dropClosed_cases h
    exact .of_call hw rfl rfl rfl fun q hq => by rw [hc]; exact hq
  | publishClosed =>
    obtain ⟨rows, ends, done, rest, b, hc, rfl⟩ := publishClosed_cases h
    exact .of_call hw rfl rfl rfl fun q hq => by rw [hc]; exact hq
  | finish =>
    obtain ⟨rows, ends, done, hc, rfl⟩ := finish_cases h
    exact ⟨hw, fun _ => le_rfl, .inr ⟨done, by rw [hc]; rfl⟩, le_rfl, nofun⟩
  | flush => exact startFlush_frame hw (flush_cases h).2
  | encode io =>
    obtain ⟨w, covered, n, -, ⟨b, w', file, -, rfl⟩ | ⟨err, w', file, -, rfl⟩⟩ :=
      encode_cases h
    all_goals
      exact ⟨hw, fun wt => by rw [blockTotal_append]; omega, .inl rfl, le_rfl, fun q => .inl⟩
  | ack => obtain ⟨w, c, n, -, rfl⟩ := ack_cases h; exact .of_call hw rfl rfl rfl fun _ => id
  | giveUp =>
    obtain ⟨w, c, n, -, rfl⟩ := giveUp_cases h
    exact .of_call hw rfl rfl rfl fun _ => id
  | commit ok =>
    obtain ⟨w, c, n, -, rfl⟩ := commit_cases h
    exact .of_call hw rfl rfl rfl fun _ => id
  | drop => obtain ⟨f, -, -, rfl⟩ := drop_cases h; exact .of_call hw rfl rfl rfl fun _ => id

/-! ## The invariant -/

def CallOk : Option (Call R) → Prop
  | some ⟨rows, .logged ends⟩ => ends.length = rows.length
  | some ⟨_, .pushing ends done rest⟩ | some ⟨_, .closing ends done rest _⟩
  | some ⟨_, .dropped ends done rest _⟩ => ends.length = done.length + rest.length
  | _ => True

structure SerialInv (s : State R) : Prop where
  wal : s.wal.isSome
  call : CallOk s.call
  covered_le : s.covered ≤ s.walEnd
  all : ∀ wt, total (fun a => wt a.2) s.acked + owed wt s.call ≤
    blockTotal wt s.files + inFlight wt s.flight + total wt s.lost + total wt s.writer.buffer
  below : ∀ f ∈ s.flight, Below s f.covered
  upTo : ∀ f ∈ s.flight, ∀ wt, ackedTotal wt f.covered s.acked ≤
    blockTotal wt s.files + inFlight wt s.flight + total wt s.lost
  commit : Safe s s.dir.commit

theorem SerialInv.of_call (h : SerialInv s) (hf : Frame s s') (hflight : s'.flight = s.flight)
    (hlost : s'.lost = s.lost) (hcommit : s'.dir.commit = s.dir.commit) (hcall : CallOk s'.call)
    (hcov : s'.covered ≤ s'.walEnd)
    (hall : ∀ wt, total (fun a => wt a.2) s'.acked + owed wt s'.call ≤
      blockTotal wt s'.files + inFlight wt s.flight + total wt s.lost +
        total wt s'.writer.buffer) : SerialInv s' where
  wal := hf.wal
  call := hcall
  covered_le := hcov
  all wt := by rw [hflight, hlost]; exact hall wt
  below f hfl := (h.below f (hflight ▸ hfl)).frame hf
  upTo f hfl wt := by
    rw [hflight] at hfl ⊢
    rw [hlost, hf.ackedTotal_eq (h.below f hfl)]
    have h1 := h.upTo f hfl wt
    have h2 := hf.files wt
    omega
  commit := by rw [hcommit]; exact h.commit.frame hf

theorem SerialInv.of_flight (h : SerialInv s) (hf : Frame s s') {f : Flight R} {ph : FlightPhase}
    (hfl : s.flight = some f) (hfl' : s'.flight = some { f with phase := ph })
    (hcall : s'.call = s.call) (hacked : s'.acked = s.acked) (hwriter : s'.writer = s.writer)
    (hcov : s'.covered = s.covered)
    (hwork : ∀ wt, blockTotal wt s.files + inFlight wt s.flight + total wt s.lost ≤
      blockTotal wt s'.files + inFlight wt s'.flight + total wt s'.lost)
    (hcommit : Safe s s'.dir.commit) : SerialInv s' where
  wal := hf.wal
  call := hcall ▸ h.call
  covered_le := hcov ▸ h.covered_le.trans hf.walEnd
  all wt := by
    have h1 := h.all wt
    have h2 := hwork wt
    rw [hacked, hcall, hwriter]
    omega
  below g hg := by
    rw [hfl'] at hg
    cases hg
    exact (h.below f hfl).frame hf
  upTo g hg wt := by
    rw [hfl'] at hg
    cases hg
    have h1 := h.upTo f hfl wt
    have h2 := hwork wt
    rw [hacked]
    exact h1.trans h2
  commit := hcommit.frame hf

theorem SerialInv.startFlush (h : SerialInv s) (hc : endsOf s.call = [])
    (hs : s.startFlush = some s') : SerialInv s' := by
  have hf := startFlush_frame h.wal hs
  rcases startFlush_cases hs with ⟨-, rfl⟩ | ⟨hnone, rfl⟩
  · exact h
  have hheld : ∀ wt, inFlight wt (some s.newFlight) = total wt s.writer.buffer := fun wt => by
    rw [← newFlight_buffer s]
    rfl
  have hzero : ∀ wt, inFlight wt s.flight = 0 := fun wt => by rw [hnone]; rfl
  refine
    { wal := h.wal
      call := h.call
      covered_le := zero_le _
      all := fun wt => ?_
      below := fun f hfl => ?_
      upTo := fun f hfl wt => ?_
      commit := h.commit.frame hf }
  · have h1 := h.all wt
    have h2 := hzero wt
    simp only [hheld, new, total_nil]
    omega
  · cases hfl
    exact ⟨h.covered_le, fun q hq => by rw [show endsOf _ = _ from hc] at hq; cases hq⟩
  · cases hfl
    -- everything acknowledged so far is in files, lost, or in the writer taken now
    have h1 := h.all wt
    have h2 := hzero wt
    have h3 := ackedTotal_le wt s.newFlight.covered s.acked
    simp only [hheld]
    omega

theorem SerialInv.pushRow {io : BlockIo} (h : SerialInv s) (hf : Frame s s')
    (hs : s.pushRow sig io = some s') : SerialInv s' := by
  obtain ⟨rows, ends, done, r, rest, hc, rfl⟩ := pushRow_cases hs
  have hcall : ends.length = done.length + (r :: rest).length := by
    have := h.call
    rw [hc] at this
    exact this
  have hok : ends.length = (done ++ [r]).length + rest.length := by
    simp only [length_append, length_cons, length_nil] at hcall ⊢
    omega
  have howed : ∀ wt, owed wt s.call = total wt done := fun wt => by rw [hc]; rfl
  rcases push_cases sig.kind s.writer r io with
    ⟨-, hp⟩ | ⟨b, hp, -, -, hrows, -⟩ | ⟨err, w', file, hp, hbuf, -, -⟩
  · rw [hp] at hf ⊢
    refine h.of_call hf rfl rfl rfl hok h.covered_le fun wt => ?_
    have h1 := h.all wt
    have h2 := howed wt
    simp only [owed, total_append, total_cons, total_nil, blockTotal_append, toList_none,
      blockTotal_nil]
    omega
  · rw [hp] at hf ⊢
    refine h.of_call hf rfl rfl rfl hok h.covered_le fun wt => ?_
    have h1 := h.all wt
    have h2 := howed wt
    have h3 := total_perm (w := wt) hrows
    simp only [owed, total_append, total_cons, total_nil, blockTotal_append, toList_some,
      blockTotal_singleton]
    omega
  · rw [hp] at hf ⊢
    refine h.of_call hf rfl rfl rfl trivial h.covered_le fun wt => ?_
    have h1 := h.all wt
    have h3 := total_perm (w := wt) hbuf
    simp only [owed, blockTotal_append]
    omega

theorem SerialInv.encode {io : BlockIo} (h : SerialInv s) (hf : Frame s s')
    (hs : s.encode sig io = some s') : SerialInv s' := by
  obtain ⟨w, covered, n, hfl, ⟨b, w', file, hw, rfl⟩ | ⟨err, w', file, hw, rfl⟩⟩ :=
    encode_cases hs
  · obtain ⟨hrows, -, -, rfl⟩ := flush_ok hw
    refine h.of_flight hf hfl rfl rfl rfl rfl rfl (fun wt => ?_) h.commit
    have hperm := total_perm (w := wt) (hrows ▸ sortByKey_perm sig.kind.startNs w.buffer)
    simp only [hfl, inFlight, blockTotal_append, toList_some, blockTotal_singleton]
    omega
  · obtain ⟨-, -, hfile⟩ := flush_error hw
    refine h.of_flight hf hfl rfl rfl rfl rfl rfl (fun wt => ?_) h.commit
    simp only [hfl, inFlight, blockTotal_append, total_append]
    cases file with
    | none =>
      simp only [toList_none, blockTotal_nil, isSome_none, Bool.false_eq_true, if_false]
      omega
    | some b =>
      have hperm := total_perm (w := wt) (hfile b rfl ▸ sortByKey_perm sig.kind.startNs w.buffer)
      simp only [toList_some, blockTotal_singleton, isSome_some, if_true, total_nil]
      omega

/-- **Step lemma.** -/
theorem SerialInv.step (h : SerialInv s) (hok : commitOk sig s e)
    (hs : step sig s e = some s') : SerialInv s' := by
  have hf := step_frame h.wal hok hs
  cases e with
  | batch rows =>
    obtain ⟨hc, rfl⟩ := batch_cases hs
    have hall := h.all
    simp only [hc] at hall
    refine h.of_call hf rfl rfl rfl ?_ h.covered_le fun wt => ?_
    · split_ifs <;> trivial
    · split_ifs <;> exact hall wt
  | overflowFlush =>
    obtain ⟨rows, hc, hs⟩ := overflowFlush_cases hs
    have hall := h.all
    simp only [hc] at hall
    refine SerialInv.startFlush (s := { s with call := some ⟨rows, .checked⟩ }) ?_ rfl hs
    exact h.of_call (.of_call h.wal rfl rfl rfl nofun) rfl rfl rfl trivial h.covered_le hall
  | append io =>
    obtain ⟨-, hcov, hends⟩ := append_frame h.wal hok hs
    obtain ⟨rows, hc, -, rfl⟩ := append_cases hs
    obtain ⟨w, hwal⟩ := isSome_iff_exists.mp h.wal
    have hall := h.all
    simp only [hc] at hall
    refine h.of_call hf rfl rfl (by simp [logBatch, hwal]) ?_ (hcov h.covered_le) fun wt => ?_
    · cases hl : (s.logBatch sig rows io).1 with
      | none => trivial
      | some r => exact hends rows r.2 (by simp only [hl]; rfl)
    · cases hl : (s.logBatch sig rows io).1 with
      | none => exact hall wt
      | some r => exact hall wt
  | feed =>
    obtain ⟨rows, ends, hc, rfl⟩ := feed_cases hs
    have hall := h.all
    have hcall := h.call
    simp only [hc] at hall hcall
    exact h.of_call hf rfl rfl rfl (hcall.trans (zero_add _).symm) h.covered_le hall
  | pushRow io => exact h.pushRow hf hs
  | dropClosed =>
    obtain ⟨rows, ends, done, rest, b, hc, rfl⟩ := dropClosed_cases hs
    have hall := h.all
    have hcall := h.call
    simp only [hc] at hall hcall
    exact h.of_call hf rfl rfl rfl hcall h.covered_le hall
  | publishClosed =>
    obtain ⟨rows, ends, done, rest, b, hc, rfl⟩ := publishClosed_cases hs
    have hall := h.all
    have hcall := h.call
    simp only [hc] at hall hcall
    exact h.of_call hf rfl rfl rfl hcall h.covered_le hall
  | finish =>
    obtain ⟨rows, ends, done, hc, rfl⟩ := finish_cases hs
    have hcall := h.call
    rw [hc] at hcall
    refine h.of_call hf rfl rfl rfl trivial h.covered_le fun wt => ?_
    have h1 := h.all wt
    have hlen : done.length ≤ ends.length := (hcall.trans (add_zero _)).ge
    simp only [hc, owed] at h1
    simp only [total_append, total_zip hlen, owed]
    omega
  | flush =>
    obtain ⟨hc, hs⟩ := flush_cases hs
    exact h.startFlush (by rw [hc]; rfl) hs
  | encode io => exact h.encode hf hs
  | ack =>
    obtain ⟨w, c, n, hfl, rfl⟩ := ack_cases hs
    exact h.of_flight hf hfl rfl rfl rfl rfl rfl (fun wt => by rw [hfl]; rfl) h.commit
  | giveUp =>
    obtain ⟨w, c, n, hfl, rfl⟩ := giveUp_cases hs
    exact h.of_flight hf hfl rfl rfl rfl rfl rfl (fun wt => by rw [hfl]; rfl) h.commit
  | commit ok =>
    obtain ⟨w, c, n, hfl, rfl⟩ := commit_cases hs
    refine h.of_flight hf hfl rfl rfl rfl rfl rfl (fun wt => by rw [hfl]; rfl) ?_
    rcases WalDir.advance_commit s.dir c ok with hc | hc
    · simp only [hc]; exact h.commit
    · -- the block of this flight is written, and nothing is lost
      simp only [hc]
      refine ⟨h.below _ hfl, fun wt => ?_⟩
      have h1 := h.upTo _ hfl wt
      have hlost : s.lost = [] := isEmpty_iff.mp hok
      simpa [hfl, inFlight, hlost] using h1
  | drop =>
    obtain ⟨f, hfl, hph, rfl⟩ := drop_cases hs
    refine
      { wal := h.wal
        call := h.call
        covered_le := h.covered_le
        all := fun wt => ?_
        below := nofun
        upTo := nofun
        commit := h.commit.frame hf }
    have h1 := h.all wt
    rwa [hfl, inFlight_dropsNext hph] at h1

theorem serialInv_boot (config : BlockConfig) (w : WalWriter) (dir : WalDir R)
    (buffer : Option (List R)) (files : List (Block R)) (hc : dir.commit ≤ w.position) :
    SerialInv (boot config (some w) dir buffer files) where
  wal := rfl
  call := trivial
  covered_le := zero_le _
  all _ := zero_le _
  below := nofun
  upTo := nofun
  commit := ⟨⟨hc, nofun⟩, fun _ => zero_le _⟩

theorem SerialInv.noLoss (h : SerialInv s) : s.NoLoss :=
  subperm_of_total_le fun wt => by
    rw [total_ackedUpTo, total_fileRows]
    exact h.commit.covered wt

/-- **No committed row is lost while no background write has failed.** In every run in which no
flush commits after one whose write left no block, every row of a batch that returned `Ok` at or
below the commit point is in a block file. -/
theorem serial_no_loss (sig : Signal R) (config : BlockConfig) (log : OpenedWal R)
    (buffer : Option (List R)) (files : List (Block R)) (s : State R)
    (h : Run (Serial.step sig) (commitOk sig)
      (boot config (some log.writer) log.dir buffer files) s) : s.NoLoss :=
  (h.inv (serialInv_boot config log.writer log.dir buffer files log.commit_le)
    fun _ _ _ hi hok hs => hi.step hok hs).noLoss

namespace Sample

open Parqtel.Ingest.Sample (config)

def logs : Signal LogRecord := ⟨logKind, fun _ => 92⟩

def record (ts : Int) (body : String) : LogRecord :=
  ⟨ts, ts, 9, "INFO", body, LabelSet.empty, LabelSet.empty, .replicate 16 0, .replicate 8 0, 0, "",
    ""⟩

def emptyLog : OpenedWal LogRecord := ⟨⟨0, 0, 2 ^ 26, none⟩, ⟨0, []⟩, by decide⟩

def bootLogs (n : ℕ) : State LogRecord :=
  boot (config n) (some emptyLog.writer) emptyLog.dir (some []) []

def batch (rows : List LogRecord) : List (Event LogRecord) :=
  [.batch rows, .append .fine, .feed] ++ rows.map (fun _ => .pushRow .fine) ++ [.finish]

def flushed : List (Event LogRecord) := [.flush, .encode .fine, .ack, .commit true, .drop]

def failedFlush : List (Event LogRecord) :=
  [.flush, .encode ⟨.failed, "u", 0, "No space left on device"⟩, .drop]

end Sample

open Serial.Sample in
/-- The guard is met by a run that commits: `a` is acknowledged below the commit point. -/
theorem serial_no_loss_first_flush :
    ∃ s : State LogRecord, s.ackedUpTo s.dir.commit = [record 1 "a"] ∧ s.NoLoss := by
  obtain ⟨s, hrun, hs⟩ := exists_run (Serial.step logs) (commitOk logs) (bootLogs 10)
    (fun s => s.ackedUpTo s.dir.commit = [record 1 "a"])
    (batch [record 1 "a"] ++ flushed) (by decide)
  exact ⟨s, hs, serial_no_loss logs _ emptyLog _ _ s hrun⟩

open Serial.Sample in
/-- **A later flush commits past a failed one.** The block of `a` is not written; the flush of `b`
commits its own position, and `a` is below the commit point and in no file. -/
theorem serial_loses_failed_flush :
    ∃ s : State LogRecord, Reach (Serial.step logs) (bootLogs 10) s ∧ ¬ s.NoLoss := by
  obtain ⟨s, hrun, hacked, hfile⟩ := exists_run (Serial.step logs) (fun _ _ => True) (bootLogs 10)
    (fun s => record 1 "a" ∈ s.ackedUpTo s.dir.commit ∧ record 1 "a" ∉ s.fileRows)
    (batch [record 1 "a"] ++ failedFlush ++ batch [record 2 "b"] ++ flushed) (by decide)
  exact ⟨s, hrun, fun hloss => hfile (hloss.subset hacked)⟩

end Parqtel.Ingest.Serial
