import Lana.Library.Numerals
import Lana.Library.Printing
import Lana.User.Commands

/-!
# The list of blocks

`procfs_fblocks` of `xt_fblock.c` prints a line for each block into a page, by ascending idp.  A
block that has notifiers closes its line one byte earlier, over the blank behind the last remote,
but the closing bracket and the newline are counted in full; so the zero that `sprintf` wrote
behind them is counted as well (`text_printFblock`).  The page is the list of the lines exactly
when no block has notifiers, as far as the counter has passed the idps of all blocks and the loop
ends (`listing_exact_iff`): the loop counts with an `int`, and with the idp counter at the largest
`int` no value of it is beyond the counter.
-/

namespace Lana

open Numerals Printing

/-! ## The loops -/

/-- `%d`. -/
def decimal : ℤ → List UInt8
  | .ofNat n => numeral 10 n
  | .negSucc n => ascii "-" ++ numeral 10 (n + 1)

/-- `++i` of an `int`. -/
def nextInt (i : ℤ) : ℤ := Int.bmod (i + 1) (2 ^ 32)

/-- `long long max = atomic64_read(&idp_counter)`. -/
def maxIdp (s : State) : ℤ := Int.bmod s.idpCounter (2 ^ 64)

/-- `radix_tree_lookup(&fblmap, i)`; a negative `i` is an index beyond every idp. -/
def fblmapAt (s : State) (i : ℤ) : Option Addr :=
  if i < 0 then none else s.fblmap (UInt32.ofNat i.toNat)

/-- The lines of the blocks registered under the given idps, in order. -/
def linesOf (s : State) (line : Addr → List UInt8) (idps : List ℕ) : List UInt8 :=
  idps.flatMap fun i => (s.fblmap (UInt32.ofNat i)).elim [] line

section Listing

-- what `%p` prints of an address
variable (pointer : Addr → CStr)

/-- `"%s %s %p %u %d ["`. -/
def listHead (s : State) (fb : Addr) : List UInt8 :=
  (s.name fb).bytes ++ ascii " " ++ (s.factory fb).elim (ascii "vlink") (fun f => f.type.bytes) ++
    ascii " " ++ (pointer fb).bytes ++ ascii " " ++ numeral 10 (s.idp fb).toNat ++ ascii " " ++
    decimal (s.refcnt fb) ++ ascii " ["

/-- The loop over the notifiers, with `has_sub`. -/
def printNotifiers (s : State) (o : Out UInt8) (fns : List NodeAddr) : Out UInt8 × ℕ :=
  fns.foldl (fun r fn => (r.1.print 0 (numeral 10 (s.remote fn).toNat ++ ascii " "), 1)) (o, 0)

/-- The line of a block. -/
def printFblock (s : State) (o : Out UInt8) (fb : Addr) : Out UInt8 :=
  let r := printNotifiers s (o.print 0 (listHead pointer s fb)) (s.notifiers fb)
  r.1.print r.2 (ascii "]\n")

/-- One pass of the loop. -/
def printIdp (s : State) (o : Out UInt8) (i : ℤ) : Out UInt8 :=
  (fblmapAt s i).elim o (printFblock pointer s o)

/-- The loop from `i` on; `none` as long as it has not ended. -/
def procfsLoop (s : State) : ℕ → ℤ → Out UInt8 → Option (Out UInt8)
  | 0, _, _ => none
  | fuel + 1, i, o =>
    if i ≤ maxIdp s then procfsLoop s fuel (nextInt i) (printIdp pointer s o i) else some o

/-- `procfs_fblocks`. -/
def procfsFblocks (fuel : ℕ) (s : State) (page : ℕ → UInt8) : Option (Out UInt8) :=
  procfsLoop pointer s fuel 0 (.start page)

/-! ## The lines -/

/-- The line of a block as it is meant: `name type pointer idp refcnt [r1 r2 ... rn]`. -/
def listLine (s : State) (fb : Addr) : List UInt8 :=
  listHead pointer s fb ++
    (ascii " ").intercalate ((s.notifiers fb).map fun fn => numeral 10 (s.remote fn).toNat) ++
    ascii "]\n"

/-- The lines of all registered blocks, by ascending idp. -/
def listing (s : State) : List UInt8 := linesOf s (listLine pointer s) (List.range (2 ^ 32))

/-- What is counted of a line. -/
def countedLine (s : State) (fb : Addr) : List UInt8 :=
  listLine pointer s fb ++ if s.notifiers fb = [] then [] else [0]

variable {pointer}

/-- The loop prints the remotes, each with a blank behind it; `has_sub` says whether it ran. -/
theorem printNotifiers_eq (s : State) (o : Out UInt8) (fns : List NodeAddr) :
    printNotifiers s o fns =
      (fns.foldl (fun o fn => o.print 0 (numeral 10 (s.remote fn).toNat ++ ascii " ")) o,
        if fns = [] then 0 else 1) := by
  suffices h : ∀ r : Out UInt8 × ℕ, fns.foldl (fun r fn =>
      (r.1.print 0 (numeral 10 (s.remote fn).toNat ++ ascii " "), 1)) r =
        (fns.foldl (fun o fn => o.print 0 (numeral 10 (s.remote fn).toNat ++ ascii " ")) r.1,
          if fns = [] then r.2 else 1) from h (o, 0)
  induction fns with
  | nil => exact fun r => rfl
  | cons fn fns ih =>
    intro r
    rw [List.foldl_cons, List.foldl_cons, ih, if_neg (List.cons_ne_nil _ _), ite_self]

theorem text_printNotifiers (s : State) (o : Out UInt8) (fns : List NodeAddr) :
    (printNotifiers s o fns).1.text =
      o.text ++ fns.flatMap fun fn => numeral 10 (s.remote fn).toNat ++ ascii " " := by
  rw [printNotifiers_eq]
  refine Out.text_foldl (fun o fn => ?_) fns o
  exact Out.text_print o _

/-- A line is followed by a zero if the block has notifiers. -/
theorem text_printFblock (s : State) (o : Out UInt8) (fb : Addr) :
    (printFblock pointer s o fb).text = o.text ++ countedLine pointer s fb := by
  have hblank : ascii " " = [32] := by decide
  have htext := text_printNotifiers s (o.print 0 (listHead pointer s fb)) (s.notifiers fb)
  have hsub := congrArg Prod.snd
    (printNotifiers_eq s (o.print 0 (listHead pointer s fb)) (s.notifiers fb))
  unfold printFblock countedLine listLine
  dsimp only at hsub ⊢
  rw [hsub]
  cases hfns : s.notifiers fb with
  | nil =>
    rw [hfns] at htext
    rw [if_pos rfl, if_pos rfl, Out.text_print, htext]
    simp
  | cons fn fns =>
    -- the bracket goes over the blank behind the last remote
    rw [hfns, hblank, flatMap_separated, Out.text_print, ← List.append_assoc] at htext
    rw [if_neg (List.cons_ne_nil _ _), if_neg (List.cons_ne_nil _ _), Out.text_print_back htext,
      hblank]
    simp only [List.append_assoc]

theorem text_printIdp (s : State) (o : Out UInt8) (i : ℤ) :
    (printIdp pointer s o i).text =
      o.text ++ (fblmapAt s i).elim [] (countedLine pointer s) := by
  unfold printIdp
  cases fblmapAt s i with
  | none => exact (List.append_nil _).symm
  | some fb => exact text_printFblock s o fb

/-! ## The loop over the idps -/

theorem nextInt_of_lt {i : ℕ} (h : i + 1 < 2 ^ 31) : nextInt i = (i + 1 : ℕ) := by
  unfold nextInt
  rw [Int.bmod_eq_of_le] <;> push_cast <;> omega

theorem nextInt_lt (i : ℤ) : nextInt i < 2 ^ 31 := by
  unfold nextInt
  have h := Int.bmod_lt (x := i + 1) (m := 2 ^ 32) (by decide)
  omega

theorem maxIdp_of_lt {s : State} (h : s.idpCounter < 2 ^ 31) : maxIdp s = s.idpCounter := by
  unfold maxIdp
  rw [Int.bmod_eq_of_le] <;> omega

/-- With the counter below the largest `int` the loop ends after the idp it has reached. -/
theorem procfsLoop_eq {s : State} (hs : s.idpCounter + 1 < 2 ^ 31) (fuel : ℕ) :
    ∀ (i n : ℕ) (o : Out UInt8), i + n = s.idpCounter + 1 →
      procfsLoop pointer s fuel i o =
        if n < fuel then
          some ((List.range' i n).foldl (fun o i => printIdp pointer s o (i : ℕ)) o)
        else none := by
  induction fuel with
  | zero => intro i n o _; rfl
  | succ fuel ih =>
    intro i n o hin
    unfold procfsLoop
    rw [maxIdp_of_lt (by omega)]
    cases n with
    | zero => rw [if_neg (by omega), if_pos (Nat.succ_pos _)]; rfl
    | succ n =>
      rw [if_pos (by omega), nextInt_of_lt (by omega), ih (i + 1) n _ (by omega),
        List.range'_succ, List.foldl_cons]
      simp only [Nat.add_lt_add_iff_right]

/-- With the counter at the largest `int` every `i` is in the range of the loop. -/
theorem procfsLoop_none {s : State} (hs : s.idpCounter + 1 = 2 ^ 31) (fuel : ℕ) :
    ∀ (i : ℤ) (o : Out UInt8), i < 2 ^ 31 → procfsLoop pointer s fuel i o = none := by
  induction fuel with
  | zero => intro i o _; rfl
  | succ fuel ih =>
    intro i o hi
    unfold procfsLoop
    rw [maxIdp_of_lt (by omega), if_pos (by omega)]
    exact ih _ _ (nextInt_lt i)

theorem fblmapAt_natCast (s : State) (i : ℕ) : fblmapAt s i = s.fblmap (UInt32.ofNat i) := by
  unfold fblmapAt
  rw [if_neg (by omega), Int.toNat_natCast]

theorem procfsFblocks_eq {s : State} (hs : s.idpCounter + 1 < 2 ^ 31) (fuel : ℕ)
    (page : ℕ → UInt8) :
    procfsFblocks pointer fuel s page =
      if s.idpCounter + 1 < fuel then
        some ((List.range (s.idpCounter + 1)).foldl (fun o i => printIdp pointer s o (i : ℕ))
          (.start page))
      else none := by
  unfold procfsFblocks
  rw [← Nat.cast_zero, procfsLoop_eq hs fuel 0 _ _ (Nat.zero_add _), List.range_eq_range']

/-- **The page.** The counted lines of the blocks up to the counter. -/
theorem text_procfsFblocks {s : State} (hs : s.idpCounter + 1 < 2 ^ 31) {fuel : ℕ}
    {page : ℕ → UInt8} {out : Out UInt8} (h : procfsFblocks pointer fuel s page = some out) :
    out.text = linesOf s (countedLine pointer s) (List.range (s.idpCounter + 1)) := by
  rw [procfsFblocks_eq hs] at h
  split_ifs at h
  obtain rfl := Option.some.inj h
  rw [Out.text_foldl (fun o i => text_printIdp s o (i : ℕ)), Out.text_start, List.nil_append]
  simp only [fblmapAt_natCast]
  rfl

/-! ## Exactness -/

theorem zero_notMem_decimal (i : ℤ) : 0 ∉ decimal i := by
  cases i with
  | ofNat n => exact zero_notMem_numeral (by decide) (by decide) n
  | negSucc n =>
    unfold decimal
    rw [List.mem_append]
    rintro (h | h)
    · revert h
      decide
    · exact zero_notMem_numeral (by decide) (by decide) _ h

theorem CStr.zero_notMem (s : CStr) : 0 ∉ s.bytes := fun h => s.nonzero 0 h rfl

theorem zero_notMem_listHead (s : State) (fb : Addr) : 0 ∉ listHead pointer s fb := by
  have hblank : 0 ∉ ascii " " := by decide
  have htype : 0 ∉ (s.factory fb).elim (ascii "vlink") fun f => f.type.bytes := by
    cases s.factory fb with
    | none => decide
    | some f => exact f.type.zero_notMem
  unfold listHead
  simp only [List.mem_append, not_or]
  exact ⟨⟨⟨⟨⟨⟨⟨⟨⟨(s.name fb).zero_notMem, hblank⟩, htype⟩, hblank⟩, (pointer fb).zero_notMem⟩,
    hblank⟩, zero_notMem_numeral (by decide) (by decide) _⟩, hblank⟩, zero_notMem_decimal _⟩,
    by decide⟩

/-- A line is text. -/
theorem zero_notMem_listLine (s : State) (fb : Addr) : 0 ∉ listLine pointer s fb := by
  unfold listLine
  simp only [List.mem_append, not_or]
  refine ⟨⟨zero_notMem_listHead s fb, fun h => ?_⟩, by decide⟩
  rw [show ascii " " = [32] by decide] at h
  rcases mem_intercalate_map h with h | ⟨fn, -, h⟩
  · revert h
    decide
  · exact zero_notMem_numeral (by decide) (by decide) _ h

theorem listLine_ne_nil (s : State) (fb : Addr) : listLine pointer s fb ≠ [] := by
  unfold listLine
  simp [ascii]

theorem mem_linesOf {s : State} {line : Addr → List UInt8} {idps : List ℕ} {b : UInt8} :
    b ∈ linesOf s line idps ↔
      ∃ i ∈ idps, ∃ fb, s.fblmap (UInt32.ofNat i) = some fb ∧ b ∈ line fb := by
  unfold linesOf
  rw [List.mem_flatMap]
  refine exists_congr fun i => and_congr_right fun _ => ?_
  cases s.fblmap (UInt32.ofNat i) <;> simp

/-- The lines of the blocks up to an idp are followed by the lines of the others. -/
theorem listing_split (s : State) {n : ℕ} (hn : n ≤ 2 ^ 32) :
    listing pointer s = linesOf s (listLine pointer s) (List.range n) ++
      linesOf s (listLine pointer s) (List.range' n (2 ^ 32 - n)) := by
  unfold listing linesOf
  obtain ⟨k, hk⟩ := Nat.exists_eq_add_of_le hn
  rw [hk, Nat.add_sub_cancel_left, List.range_eq_range', ← List.range'_append_1, Nat.zero_add,
    List.flatMap_append, ← List.range_eq_range']

/-- Nothing follows exactly when no block is registered behind. -/
theorem linesOf_rest_eq_nil_iff (s : State) (n : ℕ) :
    linesOf s (listLine pointer s) (List.range' n (2 ^ 32 - n)) = [] ↔
      ∀ i fb, s.fblmap i = some fb → i.toNat < n := by
  unfold linesOf
  rw [List.flatMap_eq_nil_iff]
  constructor
  · intro h i fb hfb
    by_contra hge
    have hmem : i.toNat ∈ List.range' n (2 ^ 32 - n) := by
      have := i.toNat_lt
      rw [List.mem_range'_1]
      omega
    have hline := h _ hmem
    rw [UInt32.ofNat_toNat, hfb] at hline
    exact listLine_ne_nil s fb hline
  · intro h i hi
    rw [List.mem_range'_1] at hi
    cases hfb : s.fblmap (UInt32.ofNat i) with
    | none => rfl
    | some fb =>
      have hlt := h _ fb hfb
      rw [UInt32.toNat_ofNat_of_lt' (show i < 2 ^ 32 by omega)] at hlt
      omega

/-- A page of lines has no line of a block with notifiers, as no line holds a zero. -/
theorem notifiers_nil_of_exact {s : State} {n : ℕ}
    (h : linesOf s (countedLine pointer s) (List.range n) = listing pointer s)
    {i : ℕ} (hi : i < n) {fb : Addr} (hfb : s.fblmap (UInt32.ofNat i) = some fb) :
    s.notifiers fb = [] := by
  by_contra hne
  have hzero : 0 ∈ countedLine pointer s fb := by
    unfold countedLine
    rw [if_neg hne]
    exact List.mem_append_right _ (List.mem_singleton.2 rfl)
  have hmem : 0 ∈ listing pointer s := by
    rw [← h, mem_linesOf]
    exact ⟨i, List.mem_range.2 hi, fb, hfb, hzero⟩
  obtain ⟨j, -, fb', -, hline⟩ := mem_linesOf.1 hmem
  exact zero_notMem_listLine s fb' hline

/-- Without notifiers what is counted are the lines. -/
theorem linesOf_countedLine {s : State} {n : ℕ}
    (h : ∀ i < n, ∀ fb, s.fblmap (UInt32.ofNat i) = some fb → s.notifiers fb = []) :
    linesOf s (countedLine pointer s) (List.range n) =
      linesOf s (listLine pointer s) (List.range n) := by
  refine List.flatMap_congr fun i hi => ?_
  cases hfb : s.fblmap (UInt32.ofNat i) with
  | none => rfl
  | some fb =>
    show countedLine pointer s fb = listLine pointer s fb
    unfold countedLine
    rw [if_pos (h i (List.mem_range.1 hi) fb hfb), List.append_nil]

/-- **The list of blocks.** With the idp counter below `2 ^ 31` the page ends up as the lines of the
registered blocks, by ascending idp and with nothing in between, exactly when the counter is below
the largest `int`, no block is registered beyond it and no registered block has notifiers. -/
theorem listing_exact_iff (pointer : Addr → CStr) (s : State) (page : ℕ → UInt8)
    (hs : s.idpCounter < 2 ^ 31) :
    (∃ fuel out, procfsFblocks pointer fuel s page = some out ∧ out.text = listing pointer s) ↔
      s.idpCounter + 1 < 2 ^ 31 ∧
        ∀ i fb, s.fblmap i = some fb → i.toNat ≤ s.idpCounter ∧ s.notifiers fb = [] := by
  constructor
  · rintro ⟨fuel, out, hout, htext⟩
    have hlt : s.idpCounter + 1 < 2 ^ 31 := by
      by_contra hnot
      have hnone : procfsFblocks pointer fuel s page = none :=
        procfsLoop_none (by omega) fuel 0 _ (by decide)
      rw [hnone] at hout
      cases hout
    rw [text_procfsFblocks hlt hout] at htext
    have hnil : ∀ i < s.idpCounter + 1, ∀ fb, s.fblmap (UInt32.ofNat i) = some fb →
        s.notifiers fb = [] := fun i hi fb hfb => notifiers_nil_of_exact htext hi hfb
    rw [linesOf_countedLine hnil,
      listing_split s (show s.idpCounter + 1 ≤ 2 ^ 32 by omega)] at htext
    have hle := (linesOf_rest_eq_nil_iff s _).1 (List.self_eq_append_right.1 htext)
    refine ⟨hlt, fun i fb hfb => ⟨Nat.le_of_lt_succ (hle i fb hfb), ?_⟩⟩
    refine hnil i.toNat (hle i fb hfb) fb ?_
    rw [UInt32.ofNat_toNat]
    exact hfb
  · rintro ⟨hlt, hall⟩
    obtain ⟨out, hout⟩ : ∃ out, procfsFblocks pointer (s.idpCounter + 2) s page = some out := by
      rw [procfsFblocks_eq hlt, if_pos (Nat.lt_succ_self _)]
      exact ⟨_, rfl⟩
    refine ⟨_, out, hout, ?_⟩
    rw [text_procfsFblocks hlt hout, linesOf_countedLine fun i _ fb hfb => (hall _ fb hfb).2,
      listing_split s (show s.idpCounter + 1 ≤ 2 ^ 32 by omega),
      (linesOf_rest_eq_nil_iff s _).2 fun i fb hfb => Nat.lt_succ_of_le (hall i fb hfb).1,
      List.append_nil]

/-- Three blocks, of which the second one has been removed. -/
def listedApart : State :=
  run (.init oneCpu) [.add nameA Factory.dummy.type .ok, .add nameB Factory.tee.type .ok,
    .add nameC Factory.counter.type .ok, .rm nameB]

theorem listing_exact_apart :
    listedApart.idpCounter < 2 ^ 31 ∧
      ∃ fuel out, procfsFblocks (fun _ => nameS) fuel listedApart (fun _ => 0) = some out ∧
        out.text = listing (fun _ => nameS) listedApart := by
  refine ⟨by decide, (listing_exact_iff _ _ _ (by decide)).2 ⟨by decide, fun i fb hfb => ?_⟩⟩
  have hmap : listedApart.fblmap = Function.update (Function.update (Function.update
      (Function.update (fun _ => none) 1 (some 0)) 2 (some 1)) 3 (some 2)) 2 none := rfl
  simp only [hmap, Function.update_apply] at hfb
  split_ifs at hfb with h2 h3 h1
  · obtain rfl := Option.some.inj hfb
    rw [h3]
    exact ⟨by decide, rfl⟩
  · obtain rfl := Option.some.inj hfb
    rw [h1]
    exact ⟨by decide, rfl⟩

/-- Two blocks `a` and `b`, bound to each other. -/
def listedBound : State :=
  run (.init oneCpu) [.add nameA Factory.dummy.type .ok, .add nameB Factory.dummy.type .ok,
    .bind nameA nameB .ok]

/-- A zero is counted behind both lines. -/
theorem listing_bound :
    listedBound.idpCounter < 2 ^ 31 ∧
      (procfsFblocks (fun _ => nameS) 4 listedBound fun _ => 0).map Out.text =
        some (ascii "a dummy s 1 4 [2]\n" ++ [0] ++ (ascii "b dummy s 2 4 [1]\n" ++ [0])) ∧
      ¬ ∃ fuel out, procfsFblocks (fun _ => nameS) fuel listedBound (fun _ => 0) = some out ∧
        out.text = listing (fun _ => nameS) listedBound := by
  refine ⟨by decide, by decide +kernel, ?_⟩
  rintro ⟨fuel, out, hout, htext⟩
  rw [text_procfsFblocks (by decide) hout] at htext
  exact absurd (notifiers_nil_of_exact htext (show 1 < _ by decide) rfl) (by decide)

end Listing

end Lana
