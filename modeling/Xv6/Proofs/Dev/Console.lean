import Xv6.Kernel.Console
import Xv6.Lib.RingBuffer

/-!
# `Xv6.Proofs.Dev.Console`: the console delivers the edited lines

The buffer between `r` and `e` is a ring that holds what is committed and not read, `u`, and then
the line being edited; `w` is where the one ends and the other begins (`Rep`). `consoleintr` does
to the two what the editor does to them (`consoleintr_rep`): the erasing characters only touch the
line, and a newline, `^D` or a full ring moves the line over to `u`. A stretch of a read takes
from the front of `u` by the rules of `Reads` (`consolereadLoop_rep`).

The run lemma `Disciplined` puts both together: `u` is what the editor committed and the readers
have not taken, and what they got is what they took without the `^D`s.
-/

set_option autoImplicit false

namespace Xv6.Kernel

open Lib

variable {c : Cons} {u line : List UInt8} {ch : UInt8} {s t : ConsRun}

theorem eq_iff_distance (a b : UInt32) : a = b ↔ (a - b).toNat = 0 := by
  have ha : a.toNat < 2 ^ 32 := a.toNat_lt
  have hb : b.toNat < 2 ^ 32 := b.toNat_lt
  rw [← UInt32.toNat_inj, UInt32.toNat_sub]
  omega

/-- The console holds the committed bytes `u` and the edited line. -/
structure Rep (c : Cons) (u line : List UInt8) : Prop where
  length : c.buf.length = INPUT_BUF_SIZE
  holds : RingBuffer.Holds INPUT_BUF_SIZE (2 ^ 32)
    ⟨fun i => c.buf.getD i 0, c.r.toNat, c.e.toNat⟩ (u ++ line)
  write : c.w.toNat = (c.r.toNat + u.length) % 2 ^ 32
  openLine : NL ∉ line

namespace Rep

theorem bound (h : Rep c u line) : u.length + line.length ≤ INPUT_BUF_SIZE := by
  rw [← List.length_append]
  exact h.holds.bound

theorem edit (h : Rep c u line) :
    c.e.toNat = (c.r.toNat + (u.length + line.length)) % 2 ^ 32 := by
  rw [← List.length_append]
  exact h.holds.write

/-! The three distances. -/

theorem unread (h : Rep c u line) : (c.w - c.r).toNat = u.length := by
  have hsize : INPUT_BUF_SIZE = 128 := rfl
  have hr : c.r.toNat < 2 ^ 32 := c.r.toNat_lt
  have hb := h.bound
  have hw := h.write
  rw [UInt32.toNat_sub]
  omega

theorem used (h : Rep c u line) : (c.e - c.r).toNat = u.length + line.length := by
  have hsize : INPUT_BUF_SIZE = 128 := rfl
  have hr : c.r.toNat < 2 ^ 32 := c.r.toNat_lt
  have hb := h.bound
  have he := h.edit
  rw [UInt32.toNat_sub]
  omega

theorem edited (h : Rep c u line) : (c.e - c.w).toNat = line.length := by
  have hsize : INPUT_BUF_SIZE = 128 := rfl
  have hr : c.r.toNat < 2 ^ 32 := c.r.toNat_lt
  have hb := h.bound
  have hw := h.write
  have he := h.edit
  rw [UInt32.toNat_sub]
  omega

theorem caughtUp_iff (h : Rep c u line) : c.r = c.w ↔ u = [] := by
  rw [← List.length_eq_zero_iff, ← h.unread, eq_comm, eq_iff_distance]

theorem noLine_iff (h : Rep c u line) : c.e = c.w ↔ line = [] := by
  rw [← List.length_eq_zero_iff, ← h.edited, eq_iff_distance]

/-- The last character of the line is erased. -/
theorem erase (h : Rep c u (line ++ [ch])) :
    c.at (c.e - 1) = ch ∧ Rep { c with e := c.e - 1 } u line := by
  have hholds := h.holds
  rw [← List.append_assoc] at hholds
  have hpred : (c.e - 1).toNat = (c.e.toNat + 2 ^ 32 - 1) % 2 ^ 32 := by
    rw [UInt32.toNat_sub]
    show (2 ^ 32 - 1 + c.e.toNat) % 2 ^ 32 = _
    congr 1
    omega
  have hback := hholds.unpush
  unfold RingBuffer.unpush at hback
  constructor
  · have hlast := hholds.last (by decide)
    unfold Cons.at
    rw [hpred]
    exact hlast
  · refine ⟨h.length, ?_, h.write, fun hmem => h.openLine (List.mem_append_left _ hmem)⟩
    simp only [hpred]
    exact hback

theorem put_holds (h : Rep c u line) (hroom : u.length + line.length < INPUT_BUF_SIZE)
    (ch : UInt8) :
    RingBuffer.Holds INPUT_BUF_SIZE (2 ^ 32)
      ⟨fun i => (c.put ch).buf.getD i 0, c.r.toNat, (c.put ch).e.toNat⟩
      (u ++ (line ++ [ch])) := by
  have hcell : c.e.toNat % INPUT_BUF_SIZE < c.buf.length := by
    rw [h.length]
    exact Nat.mod_lt _ (by decide)
  have hpush := h.holds.push (x := ch) (by decide) (by rwa [List.length_append])
  unfold RingBuffer.push at hpush
  rw [← List.append_assoc]
  unfold Cons.put
  simp only [RingBuffer.getD_set c.buf hcell ch 0]
  exact hpush

theorem put_length (h : Rep c u line) : (c.put ch).buf.length = INPUT_BUF_SIZE := by
  rw [← h.length]
  exact List.length_set

/-- A character is added to the line. -/
theorem put (h : Rep c u line) (hroom : u.length + line.length < INPUT_BUF_SIZE) (hch : ch ≠ NL) :
    Rep (c.put ch) u (line ++ [ch]) := by
  refine ⟨h.put_length, h.put_holds hroom ch, h.write, fun hmem => ?_⟩
  rcases List.mem_append.mp hmem with hold | hnew
  · exact h.openLine hold
  · exact hch (List.mem_singleton.mp hnew).symm

/-- A character is added to the line, which is committed. -/
theorem commit (h : Rep c u line) (hroom : u.length + line.length < INPUT_BUF_SIZE)
    (ch : UInt8) :
    Rep { c.put ch with w := (c.put ch).e } (u ++ (line ++ [ch])) [] := by
  have hholds := h.put_holds hroom ch
  exact ⟨h.put_length, by rw [List.append_nil]; exact hholds, hholds.write, by simp⟩

/-- A byte is taken. -/
theorem pop (h : Rep c (ch :: u) line) : c.at c.r = ch ∧ Rep { c with r := c.r + 1 } u line := by
  have hpop := h.holds.pop (by decide)
  unfold RingBuffer.pop at hpop
  refine ⟨h.holds.head, h.length, hpop, ?_, h.openLine⟩
  have hw := h.write
  rw [List.length_cons] at hw
  show c.w.toNat = ((c.r + 1).toNat + u.length) % 2 ^ 32
  rw [UInt32.toNat_add, Nat.mod_add_mod, hw]
  congr 1
  show _ = c.r.toNat + 1 + u.length
  omega

end Rep

/-! ### Typing -/

theorem killLine_rep {n : Nat} (h : Rep c u line) (hn : line.length = n) :
    Rep (killLine n c) u [] ∧ (killLine n c).w = c.w ∧ (killLine n c).r = c.r ∧
      (killLine n c).buf = c.buf := by
  induction n generalizing c line with
  | zero =>
    obtain rfl := List.length_eq_zero_iff.mp hn
    exact ⟨h, rfl, rfl, rfl⟩
  | succ n ih =>
    obtain ⟨l, x, rfl⟩ : ∃ l x, line = l ++ [x] :=
      ⟨_, _, (List.dropLast_concat_getLast (List.ne_nil_of_length_eq_add_one hn)).symm⟩
    obtain ⟨hlast, hrep⟩ := h.erase
    have hx : x ≠ NL := fun hx => h.openLine (by rw [hx]; exact List.mem_append_right _ (by simp))
    have hne : c.e ≠ c.w := fun he => by simpa using h.noLine_iff.mp he
    rw [killLine, if_pos ⟨hne, by rw [hlast]; exact hx⟩]
    exact ih hrep (by simpa using hn)

/-- The erasing characters: `^U`, `^H` and delete. -/
def Erases (ch : UInt8) : Prop := ch = ctrl 'U' ∨ ch = ctrl 'H' ∨ ch = DEL

/-- They change `e` only, and not below `w`. -/
theorem consoleintr_erases (h : Rep c u line) (hch : Erases ch) :
    ∃ line', Rep (consoleintr ch c) u line' ∧ line'.length ≤ line.length ∧
      (consoleintr ch c).r = c.r ∧ (consoleintr ch c).w = c.w ∧ (consoleintr ch c).buf = c.buf ∧
      line' = if ch = ctrl 'U' then [] else line.dropLast := by
  have hP : ch ≠ ctrl 'P' := by
    rcases hch with rfl | rfl | rfl <;> decide
  unfold consoleintr
  rw [if_neg hP]
  by_cases hU : ch = ctrl 'U'
  · rw [if_pos hU, if_pos hU]
    obtain ⟨hrep, hw, hr, hbuf⟩ := killLine_rep h h.edited.symm
    exact ⟨[], hrep, Nat.zero_le _, hr, hw, hbuf, rfl⟩
  · have hback : ch = ctrl 'H' ∨ ch = DEL := hch.resolve_left hU
    rw [if_neg hU, if_neg hU, if_pos hback]
    cases line using List.reverseRecOn with
    | nil =>
      rw [if_neg (by rw [ne_eq, not_not]; exact h.noLine_iff.mpr rfl)]
      exact ⟨[], h, Nat.le_refl _, rfl, rfl, rfl, rfl⟩
    | append_singleton l x =>
      have hne : c.e ≠ c.w := fun he => by simpa using h.noLine_iff.mp he
      rw [if_pos hne]
      refine ⟨l, h.erase.2, by simp, rfl, rfl, rfl, ?_⟩
      rw [List.dropLast_concat]

/-- What the editor does to the committed bytes that are not taken, and to the line. -/
theorem consoleintr_rep {ed : Editor} {taken : Nat} (h : Rep c u ed.line)
    (hu : u = ed.committed.drop taken) (htaken : taken ≤ ed.committed.length) (ch : UInt8) :
    Rep (consoleintr ch c) ((ed.type taken ch).committed.drop taken) (ed.type taken ch).line ∧
      taken ≤ (ed.type taken ch).committed.length ∧ (consoleintr ch c).r = c.r ∧
      ed.committed <+: (ed.type taken ch).committed := by
  have hlen : u.length = ed.committed.length - taken := by rw [hu, List.length_drop]
  by_cases hP : ch = ctrl 'P'
  · unfold consoleintr Editor.type
    rw [if_pos hP]
    simp only [if_pos hP]
    exact ⟨by rw [← hu]; exact h, htaken, trivial, List.prefix_rfl⟩
  by_cases hch : Erases ch
  · obtain ⟨line', hrep, -, hr, -, -, hline⟩ := consoleintr_erases h hch
    have hed : ed.type taken ch = { ed with line := line' } := by
      unfold Editor.type
      simp only [if_neg hP, hline]
      by_cases hU : ch = ctrl 'U'
      · rw [if_pos hU, if_pos hU]
      · rw [if_neg hU, if_neg hU, if_pos (hch.resolve_left hU)]
    rw [hed]
    exact ⟨by rw [← hu]; exact hrep, htaken, hr, List.prefix_rfl⟩
  · obtain ⟨hU, hHD⟩ := not_or.mp hch
    have hguard : (ch ≠ 0 ∧ c.e - c.r < UInt32.ofNat INPUT_BUF_SIZE) ↔
        ¬ (ch = 0 ∨ INPUT_BUF_SIZE ≤ ed.committed.length - taken + ed.line.length) := by
      rw [UInt32.lt_iff_toNat_lt, h.used, hlen, not_or, Nat.not_le]
      exact Iff.rfl
    unfold consoleintr Editor.type
    simp only [if_neg hP, if_neg hU, if_neg hHD]
    by_cases hroom : ch ≠ 0 ∧ c.e - c.r < UInt32.ofNat INPUT_BUF_SIZE
    · rw [if_pos hroom, if_neg (hguard.mp hroom)]
      generalize (if ch = CR then NL else ch) = ch'
      have hfits : u.length + ed.line.length < INPUT_BUF_SIZE := by
        rw [hlen]
        exact Nat.not_le.mp (not_or.mp (hguard.mp hroom)).2
      have hcommit := h.commit hfits ch'
      have hfull : (c.put ch').e - (c.put ch').r = UInt32.ofNat INPUT_BUF_SIZE ↔
          ed.committed.length - taken + ed.line.length + 1 = INPUT_BUF_SIZE := by
        have hused : ((c.put ch').e - (c.put ch').r).toNat = _ := hcommit.used
        rw [← UInt32.toNat_inj, hused, ← hlen]
        simp [Nat.add_assoc, INPUT_BUF_SIZE]
      simp only [hfull]
      split
      · refine ⟨?_, ?_, rfl, List.prefix_append _ _⟩
        · rw [List.drop_append_of_le_length htaken, ← hu]
          exact hcommit
        · rw [List.length_append]
          omega
      · rename_i hopen
        refine ⟨?_, htaken, rfl, List.prefix_rfl⟩
        rw [← hu]
        exact h.put hfits fun hnl => hopen (.inl hnl)
    · rw [if_neg hroom, if_pos (not_not.mp fun hn => hroom (hguard.mpr hn))]
      exact ⟨by rw [← hu]; exact h, htaken, rfl, List.prefix_rfl⟩

/-! ### Reading -/

/-- A stretch of a read takes the first `k` unread bytes by the rules of `Reads`; the caller
gets those that are not `^D`. -/
structure ConsTook (target left : Nat) (c : Cons) (u line : List UInt8) (got : ConsGot) (k : Nat) :
    Prop where
  reads : Reads target left u got.out got.left (u.drop k) got.result
  rep : Rep got.cons (u.drop k) line
  bound : k ≤ u.length
  out : got.out = (u.take k).filter (· ≠ ctrl 'D')
  moved : (got.cons.r - c.r).toNat = k
  left_le : got.left ≤ target

theorem ConsTook.none {target left left' : Nat} {result : Option Int} (h : Rep c u line)
    (hleft : left' ≤ target) (hreads : Reads target left u [] left' u result) :
    ConsTook target left c u line ⟨c, [], left', result⟩ 0 :=
  ⟨hreads, h, Nat.zero_le _, rfl, (eq_iff_distance _ _).mp rfl, hleft⟩

theorem one_ahead (r : UInt32) : (r + 1 - r).toNat = 1 := by
  have hr : r.toNat < 2 ^ 32 := r.toNat_lt
  rw [UInt32.toNat_sub, UInt32.toNat_add]
  show (2 ^ 32 - r.toNat + (r.toNat + 1) % 2 ^ 32) % 2 ^ 32 = 1
  omega

theorem further_ahead {a r : UInt32} {k : Nat} (h : (a - (r + 1)).toNat = k) (hk : k < 2 ^ 31) :
    (a - r).toNat = k + 1 := by
  have ha : a.toNat < 2 ^ 32 := a.toNat_lt
  have hr : r.toNat < 2 ^ 32 := r.toNat_lt
  rw [UInt32.toNat_sub, UInt32.toNat_add] at h
  rw [UInt32.toNat_sub]
  have hone : (1 : UInt32).toNat = 1 := rfl
  rw [hone] at h
  omega

theorem consolereadLoop_took {target left : Nat} {copyout : Nat → Bool} (killed : Nat → Bool)
    (h : Rep c u line) (hcopy : ∀ i, copyout i = true) (hleft : left ≤ target) :
    ∃ k, ConsTook target left c u line (consolereadLoop target copyout killed left c) k := by
  induction left generalizing c u with
  | zero => exact ⟨0, ConsTook.none h hleft (.full u)⟩
  | succ left ih =>
    rw [consolereadLoop]
    cases u with
    | nil =>
      rw [if_pos (h.caughtUp_iff.mpr rfl)]
      cases killed left with
      | false => exact ⟨0, ConsTook.none h hleft (.sleep left)⟩
      | true => exact ⟨0, ConsTook.none h hleft (.killed left)⟩
    | cons b u =>
      have hsome : ¬ c.r = c.w := fun he => List.cons_ne_nil _ _ (h.caughtUp_iff.mp he)
      obtain ⟨hb, hpop⟩ := h.pop
      simp only [if_neg hsome, hb, hcopy]
      by_cases hD : b = ctrl 'D'
      · rw [if_pos hD]
        subst hD
        by_cases hlater : left + 1 < target
        · -- The `^D` is put back.
          rw [if_pos hlater]
          have hback : { c with r := c.r + 1 - 1 } = c := by rw [UInt32.add_sub_cancel]
          rw [hback]
          exact ⟨0, ConsTook.none h hleft (.eofLater left u hlater)⟩
        · rw [if_neg hlater]
          have hfirst : left + 1 = target := by omega
          have hzero : (target - (left + 1) : Int) = 0 := by omega
          rw [hzero]
          exact ⟨1, .eofFirst left u hfirst, hpop, by simp, by simp, one_ahead c.r, hleft⟩
      · rw [if_neg hD, if_neg (by decide)]
        by_cases hNL : b = NL
        · rw [if_pos hNL]
          subst hNL
          exact ⟨1, .newline left u, hpop, by simp, by simp [hD], one_ahead c.r,
            Nat.le_of_succ_le hleft⟩
        · rw [if_neg hNL]
          obtain ⟨k, hk⟩ := ih hpop (by omega)
          have hsize : INPUT_BUF_SIZE = 128 := rfl
          have hfew : k < 2 ^ 31 := by
            have := hk.bound
            have := hpop.bound
            omega
          refine ⟨k + 1, .byte left u hD hNL hk.reads, hk.rep, ?_, ?_, ?_, hk.left_le⟩
          · have := hk.bound
            rw [List.length_cons]
            omega
          · rw [hk.out, List.take_succ_cons, List.filter_cons_of_pos (by simp [hD])]
          · exact further_ahead hk.moved hfew

/-! ### All runs -/

/-- A new read finds its destination mapped. -/
def ReadsMapped (_ : ConsRun) : ConsStep → Prop
  | .read _ _ copyout _ => ∀ i, copyout i = true
  | _ => True

/-- The console at boot. -/
structure ConsFresh (s : ConsRun) : Prop where
  empty : s.cons.r = s.cons.w ∧ s.cons.e = s.cons.w
  length : s.cons.buf.length = INPUT_BUF_SIZE
  reads : ∀ p, s.reads p = none
  history : s.editor = ⟨[], []⟩ ∧ s.taken = 0 ∧ s.delivered = []

/-- The ring holds what the editor committed and nobody took, and the edited line. The readers
got what they took, without the `^D`s. -/
structure Lines (s : ConsRun) : Prop where
  rep : Rep s.cons (s.editor.committed.drop s.taken) s.editor.line
  taken : s.taken ≤ s.editor.committed.length
  delivered : s.delivered = (s.editor.committed.take s.taken).filter (· ≠ ctrl 'D')
  reads : ∀ p rd, s.reads p = some rd → (∀ i, rd.copyout i = true) ∧ rd.left ≤ rd.target

/-- A stretch of a read, in a run. -/
theorem Lines.took (h : Lines s) {rd : ConsRead} (killed : Nat → Bool)
    (hrd : (∀ i, rd.copyout i = true) ∧ rd.left ≤ rd.target) :
    ∃ k, ConsTook rd.target rd.left s.cons (s.editor.committed.drop s.taken) s.editor.line
      (consolereadLoop rd.target rd.copyout killed rd.left s.cons) k :=
  consolereadLoop_took killed h.rep hrd.1 hrd.2

theorem Lines.read (h : Lines s) {p : Nat} {rd : ConsRead} (killed : Nat → Bool)
    (hrd : (∀ i, rd.copyout i = true) ∧ rd.left ≤ rd.target) : Lines (s.read p rd killed) := by
  obtain ⟨k, hk⟩ := h.took killed hrd
  have hbound := hk.bound
  rw [List.length_drop] at hbound
  have htaken := h.taken
  unfold ConsRun.read
  simp only [hk.moved]
  refine ⟨?_, ?_, ?_, fun q rq hq => ?_⟩
  · rw [← List.drop_drop]
    exact hk.rep
  · show s.taken + k ≤ s.editor.committed.length
    omega
  · rw [h.delivered, hk.out, ← List.filter_append, List.take_add]
  · by_cases hqp : q = p
    · subst hqp
      obtain rfl := Option.some.inj ((Function.update_self q _ s.reads).symm.trans hq)
      exact ⟨hrd.1, hk.left_le⟩
    · exact h.reads q rq ((Function.update_of_ne hqp _ s.reads).symm.trans hq)

/-- What a step can do: a character, or a stretch of a read. -/
theorem consSteps_cases {a : ConsStep} (h : Lines s) (hall : ReadsMapped s a)
    (ht : consSteps s a = some (.ok t)) :
    (∃ ch, a = .type ch ∧
      t = { s with cons := consoleintr ch s.cons, editor := s.editor.type s.taken ch }) ∨
    ∃ p rd killed, ((∀ i, rd.copyout i = true) ∧ rd.left ≤ rd.target) ∧
      (s.reads p = none ∧ rd.left = rd.target ∨ s.reads p = some rd) ∧ t = s.read p rd killed := by
  cases a with
  | type ch => exact .inl ⟨ch, rfl, (Except.ok.inj (Option.some.inj ht)).symm⟩
  | read p n copyout killed =>
    simp only [consSteps] at ht
    split at ht
    · rename_i hp
      obtain rfl := Except.ok.inj (Option.some.inj ht)
      exact .inr ⟨p, ⟨n.toNat, copyout, n.toNat, none⟩, killed, ⟨hall, Nat.le_refl _⟩,
        .inl ⟨hp, rfl⟩, rfl⟩
    · cases ht
  | readOn p killed =>
    simp only [consSteps] at ht
    split at ht
    · rename_i hp
      obtain rfl := Except.ok.inj (Option.some.inj ht)
      exact .inr ⟨p, _, killed, h.reads p _ hp, .inr hp, rfl⟩
    · cases ht

theorem lines_of_reach (h : Reach consSteps ReadsMapped ConsFresh s) : Lines s := by
  refine h.invariant (fun s hs => ?_) fun s a t hs hall ht => ?_
  · obtain ⟨hed, htaken, hdel⟩ := hs.history
    have hr : s.cons.r.toNat < 2 ^ 32 := s.cons.r.toNat_lt
    have hmod : s.cons.r.toNat = s.cons.r.toNat % 2 ^ 32 := (Nat.mod_eq_of_lt hr).symm
    refine ⟨?_, by rw [htaken]; exact Nat.zero_le _, by rw [hdel, htaken]; rfl, fun p rd hp => ?_⟩
    · rw [hed, htaken]
      refine ⟨hs.length, RingBuffer.Holds.empty hr ?_, ?_, List.not_mem_nil⟩
      · exact congrArg UInt32.toNat (hs.empty.2.trans hs.empty.1.symm)
      · rw [← hs.empty.1]
        exact hmod
    · rw [hs.reads] at hp
      cases hp
  · rcases consSteps_cases hs hall ht with ⟨ch, -, rfl⟩ | ⟨p, rd, killed, hrd, -, rfl⟩
    · obtain ⟨hrep, htaken, -, hpre⟩ := consoleintr_rep hs.rep rfl hs.taken ch
      refine ⟨hrep, htaken, ?_, hs.reads⟩
      obtain ⟨new, hnew⟩ := hpre
      show s.delivered = _
      rw [hs.delivered, ← hnew, List.take_append_of_le_length hs.taken]
    · exact hs.read killed hrd

/-- In every run of the console whose copies succeed: `r ≤ w ≤ e ≤ r + INPUT_BUF_SIZE` modulo
`2 ^ 32`; the ring holds what the editor committed and nobody took yet, and then the edited line;
the readers got what they took without the `^D`s; an erasing character moves `e` only, and not
below `w`; and every stretch of a read takes committed bytes by the rules of `Reads`. -/
theorem console_lines (s : ConsRun) (h : Reach consSteps ReadsMapped ConsFresh s) :
    (s.cons.w - s.cons.r).toNat ≤ (s.cons.e - s.cons.r).toNat ∧
    (s.cons.e - s.cons.r).toNat ≤ INPUT_BUF_SIZE ∧
    (s.cons.w - s.cons.r).toNat = (s.editor.committed.drop s.taken).length ∧
    (∀ i < (s.cons.e - s.cons.r).toNat,
      (s.editor.committed.drop s.taken ++ s.editor.line)[i]?
        = some (s.cons.buf.getD ((s.cons.r.toNat + i) % INPUT_BUF_SIZE) 0)) ∧
    s.delivered = (s.editor.committed.take s.taken).filter (· ≠ ctrl 'D') ∧
    (∀ ch, Erases ch → (consoleintr ch s.cons).r = s.cons.r ∧
      (consoleintr ch s.cons).w = s.cons.w ∧ (consoleintr ch s.cons).buf = s.cons.buf ∧
      ((consoleintr ch s.cons).e - s.cons.w).toNat ≤ (s.cons.e - s.cons.w).toNat) ∧
    ∀ a t, ReadsMapped s a → consSteps s a = some (.ok t) → (∀ ch, a ≠ .type ch) →
      ∃ p rd rd' out, (s.reads p = none ∧ rd.left = rd.target ∨ s.reads p = some rd) ∧
        t.reads p = some rd' ∧ t.delivered = s.delivered ++ out ∧ t.editor = s.editor ∧
        Reads rd.target rd.left (s.editor.committed.drop s.taken) out rd'.left
          (t.editor.committed.drop t.taken) rd'.result := by
  have hlines := lines_of_reach h
  have hrep := hlines.rep
  refine ⟨?_, ?_, hrep.unread, fun i hi => ?_, hlines.delivered, fun ch hch => ?_,
    fun a t hall ht hread => ?_⟩
  · rw [hrep.unread, hrep.used]
    exact Nat.le_add_right _ _
  · rw [hrep.used]
    exact hrep.bound
  · rw [hrep.used, ← List.length_append] at hi
    have hget := List.getElem?_eq_getElem hi
    rw [hget]
    exact congrArg some (hrep.holds.cells i _ hget).symm
  · obtain ⟨line', hrep', hle, hr, hw, hbuf, -⟩ := consoleintr_erases hrep hch
    refine ⟨hr, hw, hbuf, ?_⟩
    have hedited := hrep'.edited
    rw [hw] at hedited
    rw [hedited, hrep.edited]
    exact hle
  · rcases consSteps_cases hlines hall ht with ⟨ch, rfl, -⟩ | ⟨p, rd, killed, hrd, hp, rfl⟩
    · exact absurd rfl (hread ch)
    · obtain ⟨k, hk⟩ := hlines.took killed hrd
      refine ⟨p, rd, _, _, hp, Function.update_self p _ s.reads, rfl, rfl, ?_⟩
      have hreads := hk.reads
      rw [List.drop_drop, ← hk.moved] at hreads
      exact hreads

/-- The console before any input. -/
def bootCons : ConsRun :=
  ⟨⟨List.replicate INPUT_BUF_SIZE 0, 0, 0, 0⟩, fun _ => none, ⟨[], []⟩, 0, []⟩

/-- The line `ab`, with a character erased in between, and a read. -/
def typeAndRead : List ConsStep :=
  [.type 97, .type 99, .type DEL, .type 98, .type CR,
    .read 0 10 (fun _ => true) fun _ => false]

theorem console_lines_ab : ∃ s, Lib.exec consSteps bootCons typeAndRead = some (.ok s) ∧
    s.delivered = [97, 98, NL] ∧
      s.delivered = (s.editor.committed.take s.taken).filter (· ≠ ctrl 'D') := by
  obtain ⟨s, hs, hout⟩ := ends_iff.mp (by decide :
    ends (Lib.exec consSteps bootCons typeAndRead)
      (fun s => decide (s.delivered = [97, 98, NL])) = true)
  have hfresh : ConsFresh bootCons :=
    ⟨⟨rfl, rfl⟩, List.length_replicate, fun _ => rfl, rfl, rfl, rfl⟩
  have hreach : Reach consSteps ReadsMapped ConsFresh s := by
    refine reach_of_exec (.start hfresh) (fun a ha t => ?_) hs
    simp only [typeAndRead, List.mem_cons, List.not_mem_nil, or_false] at ha
    rcases ha with rfl | rfl | rfl | rfl | rfl | rfl
    all_goals first | trivial | exact fun _ => rfl
  exact ⟨s, hs, of_decide_eq_true hout, (console_lines s hreach).2.2.2.2.1⟩

end Xv6.Kernel
