import Mathlib
import OpenMethodBench.Proofs.ChainText

/-! The depth `chain` publishes against the def-use paths of the window: it is the greatest
number of dependent memory reads, except that `chain` does not see a read of an absolute
address, which is printed without brackets. -/

namespace OMB

open Depth

/-! ## Paths of a window -/

namespace Operand

/-- The registers an address is computed from. -/
def addrs : Operand → List Gpr
  | mem _ p => regsNamed p.names
  | _ => []

def values : Operand → List Gpr
  | reg n => [n.reg]
  | _ => []

def isMem : Operand → Bool
  | mem _ _ => true
  | _ => false

/-- A memory operand without registers, printed `ds:0x…`. -/
def isAbs : Operand → Bool
  | mem _ (.abs _) => true
  | _ => false

end Operand

namespace Op

/-- What the instruction writes, and reads for an address or for a value. -/
def use : Op → Use Gpr
  | move _ d s => ⟨some d.reg, s.addrs, s.values⟩
  | lea d a => ⟨some d.reg, [], regsNamed a.names⟩
  | arith2 _ d s => ⟨some d.reg, s.addrs, d.reg :: s.values⟩
  | arith3 _ d s t => ⟨some d.reg, s.addrs ++ t.addrs, s.values ++ t.values⟩
  | store _ _ _ | modify _ _ _ _ | compare _ _ _ => Use.skip

/-- The operands whose memory the instruction reads. -/
def sources : Op → List Operand
  | move _ _ s | arith2 _ _ s | store _ _ s => [s]
  | lea _ _ => []
  | arith3 _ _ s t => [s, t]
  | modify _ z a s => [.mem z (.at a), s]
  | compare _ l r => [l, r]

def readsMem (o : Op) : Bool := o.sources.any Operand.isMem

def readsAbs (o : Op) : Bool := o.sources.any Operand.isAbs

end Op

namespace Window

variable (w : Window)

def uses : List (Use Gpr) := w.lines.map fun l => l.op.use

def readsAbs (k : ℕ) : Bool := w.lines[k]?.any fun l => l.op.readsAbs

/-- The memory read of an instruction. -/
def load (k : ℕ) : ℕ := if w.lines[k]?.any fun l => l.op.readsMem then 1 else 0

/-- The memory read of the call. -/
def callLoad : ℕ := if w.target.operand.isMem then 1 else 0

/-- The positions whose memory read counts on a def-use path that ends in the registers
of the call's operand; none on the empty path. -/
def PathToCall (counted : List ℕ) : Prop := Enters w.uses w.lines.length w.roots counted

/-- The dependent memory reads on the paths to the call, the call's own included. -/
def depths : Set ℕ := {n | ∃ counted, w.PathToCall counted ∧ n = cost w.load counted + w.callLoad}

/-- A path to the call that counts the most memory reads. -/
def DeepestPath (counted : List ℕ) : Prop := Deepest w.load w.PathToCall counted

end Window

/-! ## The windows -/

/-- No stack slot, and registers by their 32- or 64-bit names. -/
structure Operand.Plain (o : Operand) : Prop where
  wide : ∀ n ∈ o.names, n.isWide = true
  no_slot : ∀ z a, o = .mem z (.at a) → a.isSlot = false

/-- Loads and moves, two-operand forms that read the register they write, three-operand
forms of registers and immediates, and compares. -/
def Op.Chained : Op → Prop
  | .move _ _ s => s.Plain
  | .arith2 m _ s => s.Plain ∧ m.text ∉ chainMoves ∧ m.text ≠ "pop".toList
  | .arith3 m _ s t => s.Plain ∧ t.Plain ∧ s.isMem = false ∧ t.isMem = false ∧
      m.text ≠ "pop".toList
  | .compare _ l r => l.Plain ∧ r.Plain
  | .lea _ _ | .store _ _ _ | .modify _ _ _ _ => False

structure Window.Chained (w : Window) : Prop where
  lines : ∀ l ∈ w.lines, l.op.Chained
  target : w.target.operand.Plain
  indirect : indirectCall w.target.text = true

/-! ## One instruction -/

section Step

variable {m : Text} (addr : ℕ) {s : ChainState}

/-- An instruction that writes a register by its name. -/
theorem define_fields (hm : Writes m) (d : Dst) {t : Text} {os : List Text}
    (hs : ∀ o ∈ t :: os, Piece o) :
    let x : Insn := ⟨addr, m ++ ' ' :: Text.join ',' (d.name.text :: t :: os)⟩
    x.mnem = m ∧ x.ops = d.name.text ++ ',' :: Text.join ',' (t :: os) ∧
      x.parts = d.name.text :: t :: os ∧ x.stores = false ∧ x.gprDst = some d.reg.common := by
  obtain ⟨hne, hlow, hreads⟩ := hm
  have hfields : ∀ o ∈ d.name.text :: t :: os, Piece o := by
    intro o ho
    rcases List.mem_cons.mp ho with rfl | ho
    · exact piece_name _
    · exact hs o ho
  obtain ⟨hmnem, hops, hparts⟩ := insn_fields hne hlow hfields addr
  intro x
  refine ⟨hmnem, by rw [hops, Text.join_cons_cons], hparts, ?_, ?_⟩
  · rw [Insn.stores, hops, Text.join_cons_cons]
    exact storesTo_word (name_low _) _
  · have hgpr : ∀ (wide : Bool) (g : Gpr), isGpr (Dst.mk g wide).name.text = true := by decide
    rw [Insn.gprDst, hparts, hmnem]
    simp [hgpr d.wide d.reg, (dst_name_reg d).2, hreads]

theorem define_step (hm : Writes m) (hpop : m ≠ "pop".toList) (d : Dst) {t : Text}
    {os : List Text} (hs : ∀ o ∈ t :: os, Piece o) (word : ℕ) :
    let x : Insn := ⟨addr, m ++ ' ' :: Text.join ',' (d.name.text :: t :: os)⟩
    chainStep word s x = some ⟨Function.update s.dep d.reg.common (depthOf s x d.reg.common),
      s.stack, deltaAfter word s.delta x⟩ := by
  intro x
  obtain ⟨hmnem, -, -, hstores, hdst⟩ := define_fields addr hm d hs
  have hstored : x.stored = none := by
    rw [Insn.stored, hstores]
    rfl
  have hcall : (x.mnem == "call".toList) = false :=
    beq_eq_false_iff_ne.mpr (hmnem ▸ hm.ne_call)
  have hpop' : (x.mnem == "pop".toList) = false := beq_eq_false_iff_ne.mpr (hmnem ▸ hpop)
  rw [chainStep, hcall, hpop', depsAfter, hstored, hdst]
  rfl

/-- What the old depth of the destination adds. -/
def kept (m : Text) (operands old : ℕ) : ℕ := if m ∉ chainMoves ∧ operands ≤ 2 then old else 0

/-- Registers and immediates: the deepest of them. -/
theorem depthOf_values (hm : Writes m) (d : Dst) {t : Text} {os : List Text}
    (hs : ∀ o ∈ t :: os, Piece o) (hno : '[' ∉ Text.join ',' (t :: os)) :
    depthOf s ⟨addr, m ++ ' ' :: Text.join ',' (d.name.text :: t :: os)⟩ d.reg.common =
      max (deepest s.dep (gprsOf (Text.join ',' (t :: os))))
        (kept m (os.length + 2) (s.dep d.reg.common)) := by
  obtain ⟨hmnem, hops, hparts, hstores, -⟩ := define_fields addr hm d hs
  generalize Insn.mk addr (m ++ ' ' :: Text.join ',' (d.name.text :: t :: os)) = x at *
  have hnone : '[' ∉ x.ops := by
    rw [hops, List.mem_append, List.mem_cons]
    rintro (h | h | h)
    · exact no_bracket_name _ h
    · exact absurd h (by decide)
    · exact hno h
  have hslot : x.slot = none := slotIn_eq_none hnone
  rw [depthOf, loadedBy, hstores, hslot, bracketed_eq_none hnone, hparts, Insn.keepsDst, hmnem,
    hparts, kept]
  simp

/-- The source is a place in brackets that is no slot. -/
theorem load_fields (hm : Writes m) (d : Dst) {u : Text} (hu : '[' ∉ u) {a : Addr}
    (ha : a.isSlot = false) (hs : ∀ o ∈ [u ++ (Place.at a).text], Piece o) :
    let x : Insn := ⟨addr, m ++ ' ' :: Text.join ',' [d.name.text, u ++ (Place.at a).text]⟩
    x.slot = none ∧ bracketed x.ops = some a.text := by
  obtain ⟨-, hops, -⟩ := define_fields addr hm d hs
  intro x
  have hpre : '[' ∉ d.name.text ++ ',' :: u := by
    rw [List.mem_append, List.mem_cons]
    exact not_or.mpr ⟨no_bracket_name _, not_or.mpr ⟨by decide, hu⟩⟩
  have hops' : x.ops = (d.name.text ++ ',' :: u) ++ '[' :: (a.text ++ [']']) := by
    rw [hops, Text.join_singleton, Place.text]
    simp
  rw [Insn.slot, hops', slotIn_addr hpre ha]
  exact ⟨rfl, bracketed_addr hpre a⟩

/-- A place in brackets: one load more than the deepest register of its address. -/
theorem depthOf_load (hm : Writes m) (d : Dst) {u : Text} (hu : '[' ∉ u) {a : Addr}
    (ha : a.isSlot = false) (hs : ∀ o ∈ [u ++ (Place.at a).text], Piece o) :
    depthOf s ⟨addr, m ++ ' ' :: Text.join ',' [d.name.text, u ++ (Place.at a).text]⟩
        d.reg.common =
      max (1 + deepest s.dep (gprsOf a.text)) (kept m 2 (s.dep d.reg.common)) := by
  obtain ⟨hmnem, -, hparts, hstores, -⟩ := define_fields addr hm d hs
  obtain ⟨hslot, hbracket⟩ := load_fields addr hm d hu ha hs
  rw [depthOf, loadedBy, hstores, hslot, hbracket, Insn.keepsDst, hmnem, hparts, kept]
  simp [Nat.add_comm]

variable {dep : Gpr → ℕ}

theorem regsSpotted_wide {ns : List RegName} (h : ∀ n ∈ ns, n.isWide = true) :
    regsSpotted ns = regsNamed ns := by
  have hspotted : ∀ n : RegName, n.isWide = true → n.spotted = true := by
    intro n hn
    cases n <;> simp_all [RegName.isWide, RegName.spotted]
  rw [regsSpotted, List.filter_eq_self.mpr fun n hn => hspotted n (h n hn)]
  rfl

/-- Does `chain` count a load for the operand? -/
def Operand.load (o : Operand) : ℕ := if o.isMem && !o.isAbs then 1 else 0

theorem no_bracket_value {o : Operand} (h : o.load = 0) : '[' ∉ o.text := by
  rcases o with n | v | ⟨z, a | n⟩
  · exact no_bracket_name n
  · exact no_bracket_hexText v
  · simp [Operand.load, Operand.isMem, Operand.isAbs] at h
  · have hz : ∀ z : Size, '[' ∉ z.text ++ " PTR ".toList ++ "ds:".toList := by
      intro z
      cases z <;> decide
    rw [Operand.text, Place.text, ← List.append_assoc, List.mem_append]
    exact not_or.mpr ⟨hz z, no_bracket_hexText n⟩

theorem deepest_value {o : Operand} (ho : o.Plain) (h : o.load = 0) :
    Depth.greatest dep (regsSpotted o.names) = Depth.greatest dep o.values ∧ o.addrs = [] := by
  rw [regsSpotted_wide ho.wide]
  rcases o with n | v | ⟨z, a | n⟩
  · exact ⟨rfl, rfl⟩
  · exact ⟨rfl, rfl⟩
  · simp [Operand.load, Operand.isMem, Operand.isAbs] at h
  · exact ⟨rfl, rfl⟩

/-- Two operands: what the source brings, and what is kept of the destination. -/
theorem depthOf_two (hm : Writes m) (d : Dst) {o : Operand} (ho : o.Plain)
    (hd : Tracks s.dep dep) :
    depthOf s ⟨addr, m ++ ' ' :: Text.join ',' [d.name.text, o.text]⟩ d.reg.common =
      max (entry o.load dep ⟨some d.reg, o.addrs, o.values⟩) (kept m 2 (dep d.reg)) := by
  by_cases hload : o.load = 0
  · obtain ⟨hvalues, haddrs⟩ := deepest_value ho hload
    have hs : ∀ t ∈ [o.text], Piece t := by simp [piece_operand]
    have hdepth := depthOf_values (s := s) addr hm d hs (by simpa using no_bracket_value hload)
    rw [hdepth, Text.join_singleton, hd.deepest (mentions_operand o), hvalues, hd.reg, entry, hload,
      haddrs]
    simp [Depth.greatest]
  · rcases o with n | v | ⟨z, a | n⟩
    case mem.at =>
      have ha := ho.no_slot z a rfl
      have hnames := regsSpotted_wide (show ∀ n ∈ a.names, n.isWide = true from ho.wide)
      have hs : ∀ t ∈ [(Operand.mem z (.at a)).text], Piece t := by simp [piece_operand]
      rw [Operand.text, depthOf_load addr hm d (no_bracket_size z) ha hs,
        hd.deepest (mentions_addr a), hnames, hd.reg]
      simp [entry, Operand.load, Operand.isMem, Operand.isAbs, Operand.addrs, Operand.values,
        Depth.greatest, Place.names]
    all_goals exact absurd rfl hload

theorem Tracks.define (hd : Tracks s.dep dep) {d : Dst} {s' : ChainState} {n load : ℕ}
    {u : Use Gpr} (hdep : s'.dep = Function.update s.dep d.reg.common n) (hu : u.dst = some d.reg)
    (hn : n = entry load dep u) : Tracks s'.dep (after load dep u) := by
  rw [hdep, hn, after, hu]
  exact hd.update d.reg _

/-- The load `chain` counts for an instruction. -/
def Op.load (o : Op) : ℕ := if o.readsMem && !o.readsAbs then 1 else 0

theorem slotIn_compare {o p : Operand} (ho : o.Plain) (hp : p.Plain) :
    slotIn (o.text ++ ',' :: p.text) = none := by
  have h := slotIn_operand hp.no_slot []
  rw [List.append_nil] at h
  rw [slotIn_operand ho.no_slot, slotIn, slotAt_eq_none (by decide), h]
  rfl

/-- A compare leaves the depths alone. -/
theorem compare_step (hm : m = "cmp".toList ∨ m = "test".toList) {o p : Operand} (ho : o.Plain)
    (hp : p.Plain) (word : ℕ) :
    ∃ s', chainStep word s ⟨addr, m ++ ' ' :: Text.join ',' [o.text, p.text]⟩ = some s' ∧
      s'.dep = s.dep := by
  have hm' : m ≠ [] ∧ (∀ c ∈ m, isLow c = true) ∧ m ∈ readsFirst ∧ m ≠ "call".toList ∧
      m ≠ "pop".toList := by
    rcases hm with rfl | rfl <;> decide
  obtain ⟨hne, hlow, hreads, hcall, hpop⟩ := hm'
  have hs : ∀ t ∈ [o.text, p.text], Piece t := by simp [piece_operand]
  obtain ⟨hmnem, hops, hparts⟩ := insn_fields hne hlow hs addr
  generalize Insn.mk addr (m ++ ' ' :: Text.join ',' [o.text, p.text]) = x at *
  have hstored : x.stored = none := by
    rw [Insn.stored, Insn.slot, hops, Text.join_cons_cons, Text.join_singleton,
      slotIn_compare ho hp, ite_self]
  have hdst : x.gprDst = none := by
    rw [Insn.gprDst, hparts, hmnem]
    simp [hreads]
  have hcall' : (x.mnem == "call".toList) = false := beq_eq_false_iff_ne.mpr (hmnem ▸ hcall)
  have hpop' : (x.mnem == "pop".toList) = false := beq_eq_false_iff_ne.mpr (hmnem ▸ hpop)
  refine ⟨{ s with delta := deltaAfter word s.delta x }, ?_, rfl⟩
  rw [chainStep, hcall', hpop', depsAfter, hstored, hdst]
  rfl

/-- The step lemma: an instruction does to `dep` what its use does to the depths. -/
theorem Tracks.step (l : Line) (h : l.op.Chained) (hd : Tracks s.dep dep) (word : ℕ) :
    ∃ s', chainStep word s l.insn = some s' ∧ Tracks s'.dep (after l.op.load dep l.op.use) := by
  obtain ⟨addr, next, op⟩ := l
  rcases op with ⟨m, d, o⟩ | ⟨d, a⟩ | ⟨m, d, o⟩ | ⟨m, d, o, p⟩ | ⟨z, a, o⟩ | ⟨m, z, a, o⟩ |
    ⟨test, o, p⟩
  · have hpop : m.text ≠ "pop".toList := by cases m <;> decide
    have hmove : m.text ∈ chainMoves := by cases m <;> decide
    have hs : ∀ t ∈ [o.text], Piece t := by simp [piece_operand]
    refine ⟨_, define_step addr m.writes.1 hpop d hs word, hd.define rfl rfl ?_⟩
    have hload : (Op.move m d o).load = o.load := by
      simp [Op.load, Op.readsMem, Op.readsAbs, Op.sources, Operand.load]
    rw [depthOf_two addr m.writes.1 d h hd, kept, if_neg fun hk => hk.1 hmove, hload]
    exact Nat.max_zero _
  · exact absurd h id
  · obtain ⟨ho, hmove, hpop⟩ := h
    have hs : ∀ t ∈ [o.text], Piece t := by simp [piece_operand]
    refine ⟨_, define_step addr m.writes hpop d hs word, hd.define rfl rfl ?_⟩
    have hload : (Op.arith2 m d o).load = o.load := by
      simp [Op.load, Op.readsMem, Op.readsAbs, Op.sources, Operand.load]
    rw [depthOf_two addr m.writes d ho hd, kept, if_pos ⟨hmove, le_refl 2⟩, hload]
    -- the destination is one more register the value is computed from
    change max (max (o.load + greatest dep o.addrs) (greatest dep o.values)) (dep d.reg) =
      max (o.load + greatest dep o.addrs) (max (dep d.reg) (greatest dep o.values))
    omega
  · obtain ⟨ho, hp, hmo, hmp, hpop⟩ := h
    have hs : ∀ t ∈ [o.text, p.text], Piece t := by simp [piece_operand]
    refine ⟨_, define_step addr m.writes hpop d hs word, hd.define rfl rfl ?_⟩
    have hload : o.load = 0 ∧ p.load = 0 ∧ (Op.arith3 m d o p).load = 0 := by
      simp [Op.load, Op.readsMem, Op.sources, Operand.load, hmo, hmp]
    obtain ⟨hlo, hlp, hl⟩ := hload
    have hno : '[' ∉ Text.join ',' [o.text, p.text] := by
      rw [Text.join_cons_cons, Text.join_singleton, List.mem_append, List.mem_cons]
      rintro (h | h | h)
      · exact no_bracket_value hlo h
      · exact absurd h (by decide)
      · exact no_bracket_value hlp h
    obtain ⟨hvo, hao⟩ := deepest_value ho hlo
    obtain ⟨hvp, hap⟩ := deepest_value hp hlp
    rw [depthOf_values addr m.writes d hs hno, kept, if_neg (by simp), hl,
      hd.deepest (mentions_join₂ o p), regsSpotted_append, greatest_append, hvo, hvp, Op.use, hao,
      hap]
    change max (max (greatest dep o.values) (greatest dep p.values)) 0 =
      max (0 + 0) (greatest dep (o.values ++ p.values))
    rw [greatest_append]
    omega
  · exact absurd h id
  · exact absurd h id
  · obtain ⟨s', hs', hdep⟩ := compare_step (s := s) addr (compare_mnem test).1 h.1 h.2 word
    exact ⟨s', hs', hdep ▸ hd⟩

end Step

/-! ## The window -/

section Run

variable {w : Window}

/-- The loads `chain` counts. -/
def Window.chainLoad (w : Window) (k : ℕ) : ℕ := (w.lines[k]?.map fun l => l.op.load).getD 0

theorem Window.uses_getElem? {n : ℕ} {l : Line} (hl : w.lines[n]? = some l) :
    w.uses[n]? = some l.op.use := by
  rw [Window.uses, List.getElem?_map, hl]
  rfl

/-- The run lemma: after `n` instructions `dep` holds the depths of the paths so far. -/
theorem Window.tracks_take (h : w.Chained) (word : ℕ) {n : ℕ} (hn : n ≤ w.lines.length) :
    ∃ s, ((w.lines.map Line.insn).take n).foldlM (chainStep word) ChainState.init = some s ∧
      Tracks s.dep (depthAt w.chainLoad w.uses n) := by
  induction n with
  | zero => exact ⟨ChainState.init, rfl, fun _ => rfl, fun _ _ => rfl⟩
  | succ n ih =>
    obtain ⟨s, hs, htracks⟩ := ih (by omega)
    have hl : w.lines[n]? = some w.lines[n] := List.getElem?_eq_getElem (by omega)
    obtain ⟨s', hs', hstep⟩ := htracks.step w.lines[n] (h.lines _ (List.getElem_mem _)) word
    refine ⟨s', ?_, ?_⟩
    · rw [List.take_add_one, List.foldlM_append, hs, List.getElem?_map, hl]
      simpa using hs'
    · rw [depthAt_succ (Window.uses_getElem? hl)]
      have hload : w.chainLoad n = w.lines[n].op.load := by
        rw [Window.chainLoad, hl]
        rfl
      rwa [hload]

theorem Window.call_fields (w : Window) :
    let x : Insn := ⟨w.addr, w.target.text⟩
    x.mnem = "call".toList ∧ x.ops = w.target.operand.text := by
  have hs : ∀ t ∈ [w.target.operand.text], Piece t := by simp [piece_operand]
  have h := insn_fields (m := "call".toList) (by decide) (by decide) hs w.addr
  rw [Text.join_singleton] at h
  exact ⟨h.1, h.2.1⟩

/-- The depth at the call: the deepest register of its operand, and its own load. -/
theorem Window.callDepth_eq (h : w.Chained) {s : ChainState} {dep : Gpr → ℕ}
    (hs : Tracks s.dep dep) :
    callDepth s ⟨w.addr, w.target.text⟩ = some (greatest dep w.roots + w.callLoad) := by
  obtain ⟨-, hops⟩ := w.call_fields
  generalize Insn.mk w.addr w.target.text = x at *
  have hroots : w.roots = regsSpotted w.target.operand.names :=
    (regsSpotted_wide h.target.wide).symm
  have hplain := h.target
  rw [Window.callLoad, hroots]
  generalize w.target = t at *
  rcases t with d | ⟨z, a⟩
  · have hnone : bracketed x.ops = none := by
      rw [hops]
      exact bracketed_eq_none (no_bracket_name d.name)
    rw [callDepth, hnone, hops]
    exact congrArg some (hs.deepest (mentions_name d.name))
  · have hbracket : bracketed x.ops = some a.text := by
      rw [hops, Target.operand, Operand.text, Place.text]
      exact bracketed_addr (no_bracket_size z) a
    have hslot : x.slot = none := by
      have h := slotIn_operand hplain.no_slot []
      rw [List.append_nil] at h
      rw [Insn.slot, hops]
      exact h
    have hstores : x.stores = false := by
      rw [Insn.stores, hops]
      exact storesTo_alone z a
    rw [callDepth, hbracket, loadedBy, hstores, hslot, hbracket]
    exact congrArg (fun n => some (n + 1)) (hs.deepest (mentions_addr a))

/-- What `chain` returns: the greatest cost of a path, without the reads of absolute
addresses. -/
theorem Window.chain_eq (h : w.Chained) (word : ℕ) :
    chain w.insns word =
      some (greatest (depthAt w.chainLoad w.uses w.lines.length) w.roots + w.callLoad) := by
  obtain ⟨s, hs, htracks⟩ := Window.tracks_take h word (le_refl _)
  have hbody : ∀ x ∈ w.lines.map Line.insn, isDispatchCall x = false := by
    intro x hx
    obtain ⟨l, -, rfl⟩ := List.mem_map.mp hx
    have hcall : (l.insn.mnem == "call".toList) = false :=
      beq_eq_false_iff_ne.mpr (insn_mnem l ▸ (op_mnem l.op).2.2)
    rw [isDispatchCall, hcall, Bool.false_and]
  have hcall : isDispatchCall ⟨w.addr, w.target.text⟩ = true := by
    rw [isDispatchCall, w.call_fields.1, h.indirect]
    rfl
  have htake : (w.lines.map Line.insn).take w.lines.length = w.lines.map Line.insn := by
    rw [← List.length_map (f := Line.insn), List.take_length]
  rw [htake] at hs
  rw [chain, Window.insns, chainFrom_append hbody, hs, Option.bind_some, chainFrom_call hcall]
  exact Window.callDepth_eq h htracks

theorem Window.chainLoad_le (w : Window) (k : ℕ) : w.chainLoad k ≤ w.load k := by
  unfold Window.chainLoad Window.load
  rcases w.lines[k]? with - | l
  · exact Nat.le_refl _
  · simp only [Option.map_some, Option.getD_some, Option.any_some, Op.load]
    split_ifs <;> simp_all

/-- `chain` leaves out exactly the reads of absolute addresses. -/
theorem Window.chainLoad_eq_iff (w : Window) (k : ℕ) :
    w.chainLoad k = w.load k ↔ w.readsAbs k = false := by
  have habs : ∀ o : Op, o.readsAbs = true → o.readsMem = true := by
    intro o ho
    obtain ⟨p, hp, hp'⟩ := List.any_eq_true.mp ho
    refine List.any_eq_true.mpr ⟨p, hp, ?_⟩
    cases p <;> simp_all [Operand.isAbs, Operand.isMem]
  unfold Window.chainLoad Window.load Window.readsAbs
  rcases w.lines[k]? with - | l
  · simp
  · have hl := habs l.op
    simp only [Option.map_some, Option.getD_some, Option.any_some, Op.load]
    by_cases ha : l.op.readsAbs = true
    · simp [ha, hl ha]
    · simp [ha]

theorem Window.isGreatest_depths (w : Window) :
    IsGreatest w.depths (greatest (depthAt w.load w.uses w.lines.length) w.roots + w.callLoad) := by
  obtain ⟨⟨counted, hpath, hcost⟩, hle⟩ :=
    isGreatest_greatest w.load w.uses w.lines.length w.roots
  refine ⟨⟨counted, hpath, by rw [← hcost]⟩, ?_⟩
  rintro n ⟨other, hother, rfl⟩
  exact Nat.add_le_add_right (hle ⟨other, hother, rfl⟩) _

theorem Window.exists_deepestPath (w : Window) : ∃ counted, w.DeepestPath counted :=
  exists_deepest (isGreatest_greatest w.load w.uses w.lines.length w.roots)

end Run

/-- `chain` is the greatest number of dependent memory reads on a path to the call
exactly when some path with the most of them counts no read of an absolute address. -/
theorem chain_depth_iff (w : Window) (h : w.Chained) (word : ℕ) :
    (∃ n, chain w.insns word = some n ∧ IsGreatest w.depths n) ↔
      ∃ counted, w.DeepestPath counted ∧ ∀ k ∈ counted, w.readsAbs k = false := by
  have hiff := isGreatest_eq_iff w.chainLoad_le
    (isGreatest_greatest w.load w.uses w.lines.length w.roots)
    (isGreatest_greatest w.chainLoad w.uses w.lines.length w.roots)
  simp only [w.chainLoad_eq_iff] at hiff
  refine Iff.trans ?_ hiff
  have hgreatest := w.isGreatest_depths
  constructor
  · rintro ⟨n, hn, hmax⟩
    rw [Window.chain_eq h, Option.some.injEq] at hn
    have := hmax.unique hgreatest
    omega
  · intro heq
    rw [← heq] at hgreatest
    exact ⟨_, Window.chain_eq h word, hgreatest⟩

/-- `mov rax,[rdi]`, `mov ecx,[rip+0x2000]`, `shrx rax,rax,rcx`, `call [rbx+rax*8]`. -/
def hashedDispatch : Window where
  lines := [
    ⟨0, 3, .move .mov ⟨.quad .a, true⟩ (.mem .qword (.at (.based true (.pointer .di) none none)))⟩,
    ⟨3, 9, .move .mov ⟨.quad .c, false⟩ (.mem .dword (.at (.rip 0x2000)))⟩,
    ⟨9, 14, .arith3 ⟨"shrx".toList, by decide, by decide, by decide⟩ ⟨.quad .a, true⟩
      (.reg (.full (.quad .a))) (.reg (.full (.quad .c)))⟩]
  addr := 14
  next := 17
  target := .mem .qword (.based true (.quad .b) (some (.quad .a, .qword)) none)

theorem plain_reg (d : Dst) : (Operand.reg d.name).Plain :=
  ⟨by obtain ⟨g, - | -⟩ := d <;> simp [Operand.names, Dst.name, RegName.isWide],
    fun _ _ h => nomatch h⟩

theorem plain_mem {a : Addr} (ha : a.isSlot = false) (z : Size) : (Operand.mem z (.at a)).Plain := by
  refine ⟨fun n hn => ?_, ?_⟩
  · have hwide : ∀ (wide : Bool) (g : Gpr), (Dst.mk g wide).name.isWide = true := by decide
    rcases a with d | ⟨wide, b, - | ⟨i, s⟩, d⟩ | ⟨wide, i, s, d⟩ <;>
      simp only [Operand.names, Place.names, Addr.names, Option.toList_none, Option.toList_some,
        List.map_nil, List.map_cons, List.mem_cons, List.not_mem_nil, or_false] at hn
    · exact hn ▸ hwide wide b
    · rcases hn with rfl | rfl
      · exact hwide wide b
      · exact hwide wide i
    · exact hn ▸ hwide wide i
  · rintro z' a' ⟨-, -⟩
    exact ha

theorem hashedDispatch_chained : hashedDispatch.Chained := by
  have hrax := plain_reg ⟨.quad .a, true⟩
  have hrcx := plain_reg ⟨.quad .c, true⟩
  refine ⟨?_, plain_mem rfl _, by decide⟩
  simp only [hashedDispatch, List.forall_mem_cons, List.not_mem_nil, false_imp_iff, implies_true,
    and_true]
  exact ⟨plain_mem rfl _, plain_mem rfl _, hrax, hrcx, rfl, rfl, by decide⟩

theorem hashedDispatch_depth :
    ∃ n, chain hashedDispatch.insns 8 = some n ∧ IsGreatest hashedDispatch.depths n := by
  obtain ⟨counted, hdeep⟩ := hashedDispatch.exists_deepestPath
  refine (chain_depth_iff hashedDispatch hashedDispatch_chained 8).mpr ⟨counted, hdeep, ?_⟩
  intro k _
  rcases k with - | - | - | k <;> rfl

/-- `mov eax,DWORD PTR ds:0x804a00c`, `call eax`. -/
def absoluteLoad : Window where
  lines := [⟨0, 5, .move .mov ⟨.quad .a, false⟩ (.mem .dword (.abs 0x804a00c))⟩]
  addr := 5
  next := 7
  target := .reg ⟨.quad .a, false⟩

/-- The load is on the path to the call, and the published depth is 0. -/
theorem absolute_load_uncounted : absoluteLoad.Chained ∧
    ¬ ∃ n, chain absoluteLoad.insns 4 = some n ∧ IsGreatest absoluteLoad.depths n := by
  refine ⟨⟨?_, plain_reg _, by decide⟩, ?_⟩
  · simp only [absoluteLoad, List.forall_mem_cons, List.not_mem_nil, false_imp_iff, implies_true,
      and_true]
    exact ⟨by simp [Operand.names, Place.names], fun _ _ h => nomatch h⟩
  · rintro ⟨n, hn, -, hle⟩
    have hzero : chain absoluteLoad.insns 4 = some 0 := by decide +kernel
    have hlast : ∀ k, 0 < k → k < absoluteLoad.lines.length →
        writes absoluteLoad.uses k ≠ some (.quad .a) := by
      intro k hk hk'
      have hlen : absoluteLoad.lines.length = 1 := rfl
      omega
    have hpath : absoluteLoad.PathToCall [0] :=
      Or.inr ⟨.quad .a, by decide, 0, ⟨by decide, rfl, hlast⟩, Path.start⟩
    have hone := hle ⟨[0], hpath, rfl⟩
    rw [hzero, Option.some.injEq] at hn
    rw [← hn] at hone
    exact absurd hone (by decide)

end OMB
