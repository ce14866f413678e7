import Mathlib.Data.List.Nodup
import Mathlib.Logic.Function.Basic

/-!
# Straight-line code

A machine has registers, of any type `ρ`, and a memory of 64-bit words. Code is a list of
instructions that are executed one after the other. Two blocks of instructions are what saving and
restoring registers is made of: `saves` stores registers at offsets from a base register
(`exec_saves`), and `loads` loads them (`exec_loads`).

Addresses are those of whole words, so that words at different addresses do not overlap.
-/

namespace RiscvLab.Library

/-- Registers and memory. -/
structure RegMachine (ρ : Type*) where
  reg : ρ → BitVec 64
  mem : BitVec 64 → BitVec 64

/-- Instructions, with the register that is written first. -/
inductive Instr (ρ : Type*)
  | sd (src : ρ) (off : BitVec 64) (base : ρ)
  | ld (dst : ρ) (off : BitVec 64) (base : ρ)
  | addi (dst src : ρ) (imm : BitVec 64)
  | mv (dst src : ρ)
  | swap (a b : ρ)

variable {ρ : Type*} [DecidableEq ρ]

/-- One instruction. -/
def RegMachine.step (m : RegMachine ρ) : Instr ρ → RegMachine ρ
  | .sd src off base => { m with mem := Function.update m.mem (m.reg base + off) (m.reg src) }
  | .ld dst off base => { m with reg := Function.update m.reg dst (m.mem (m.reg base + off)) }
  | .addi dst src imm => { m with reg := Function.update m.reg dst (m.reg src + imm) }
  | .mv dst src => { m with reg := Function.update m.reg dst (m.reg src) }
  | .swap a b => { m with reg := Function.update (Function.update m.reg a (m.reg b)) b (m.reg a) }

/-- A list of instructions. -/
def RegMachine.exec (m : RegMachine ρ) (code : List (Instr ρ)) : RegMachine ρ :=
  code.foldl RegMachine.step m

theorem exec_append (m : RegMachine ρ) (c₁ c₂ : List (Instr ρ)) :
    m.exec (c₁ ++ c₂) = (m.exec c₁).exec c₂ := List.foldl_append

theorem exec_nil (m : RegMachine ρ) : m.exec [] = m := rfl

theorem exec_cons (m : RegMachine ρ) (i : Instr ρ) (c : List (Instr ρ)) :
    m.exec (i :: c) = (m.step i).exec c := rfl

/-- The registers are stored at their offsets. -/
def saves (base : ρ) (slots : List (ρ × BitVec 64)) : List (Instr ρ) :=
  slots.map fun s => .sd s.1 s.2 base

/-- The registers are loaded from their offsets. -/
def loads (base : ρ) (slots : List (ρ × BitVec 64)) : List (Instr ρ) :=
  slots.map fun s => .ld s.1 s.2 base

/-- Each register is stored in its slot, and nothing else changes. -/
theorem exec_saves {base : ρ} {slots : List (ρ × BitVec 64)} (hnodup : (slots.map Prod.snd).Nodup)
    (m : RegMachine ρ) : (m.exec (saves base slots)).reg = m.reg ∧
      (∀ s ∈ slots, (m.exec (saves base slots)).mem (m.reg base + s.2) = m.reg s.1) ∧
      ∀ a, (∀ s ∈ slots, a ≠ m.reg base + s.2) → (m.exec (saves base slots)).mem a = m.mem a := by
  induction slots generalizing m with
  | nil => exact ⟨rfl, by simp, fun _ _ => rfl⟩
  | cons s slots ih =>
    rw [List.map_cons, List.nodup_cons] at hnodup
    have hcons : m.exec (saves base (s :: slots)) =
        (m.step (.sd s.1 s.2 base)).exec (saves base slots) := rfl
    obtain ⟨hreg, hmem, hother⟩ := ih hnodup.2 (m.step (.sd s.1 s.2 base))
    rw [hcons]
    refine ⟨hreg, fun t ht => ?_, fun a ha => ?_⟩
    · rcases List.mem_cons.1 ht with rfl | ht
      · rw [hother _ fun t' ht' e => hnodup.1 ?_]
        · exact Function.update_self ..
        · rw [(BitVec.add_right_inj _).1 e]
          exact List.mem_map_of_mem ht'
      · exact hmem t ht
    · rw [hother a fun t ht => ha t (List.mem_cons_of_mem _ ht)]
      exact Function.update_of_ne (ha s List.mem_cons_self) _ _

/-- Each register is loaded from its slot, and nothing else changes. The base register may be among
them if its slot holds its value. -/
theorem exec_loads {base : ρ} {slots : List (ρ × BitVec 64)} (hnodup : (slots.map Prod.fst).Nodup)
    (m : RegMachine ρ) (hbase : ∀ s ∈ slots, s.1 = base → m.mem (m.reg base + s.2) = m.reg base) :
    (m.exec (loads base slots)).mem = m.mem ∧
      (∀ s ∈ slots, (m.exec (loads base slots)).reg s.1 = m.mem (m.reg base + s.2)) ∧
      ∀ r, (∀ s ∈ slots, s.1 ≠ r) → (m.exec (loads base slots)).reg r = m.reg r := by
  induction slots generalizing m with
  | nil => exact ⟨rfl, by simp, fun _ _ => rfl⟩
  | cons s slots ih =>
    rw [List.map_cons, List.nodup_cons] at hnodup
    have hcons : m.exec (loads base (s :: slots)) =
        (m.step (.ld s.1 s.2 base)).exec (loads base slots) := rfl
    have hkeep : (m.step (.ld s.1 s.2 base)).reg base = m.reg base := by
      by_cases hs : base = s.1
      · have := hbase s List.mem_cons_self hs.symm
        simp [RegMachine.step, ← hs, this]
      · exact Function.update_of_ne hs _ _
    obtain ⟨hmem, hreg, hother⟩ := ih hnodup.2 (m.step (.ld s.1 s.2 base)) fun t ht htb => by
      rw [hkeep]
      exact hbase t (List.mem_cons_of_mem _ ht) htb
    rw [hcons]
    refine ⟨hmem, fun t ht => ?_, fun r hr => ?_⟩
    · rcases List.mem_cons.1 ht with rfl | ht
      · rw [hother t.1 fun t' ht' e => hnodup.1 ?_]
        · exact Function.update_self ..
        · rw [← e]
          exact List.mem_map_of_mem ht'
      · rw [hreg t ht, hkeep]
        rfl
    · rw [hother r fun t ht => hr t (List.mem_cons_of_mem _ ht)]
      exact Function.update_of_ne (hr s List.mem_cons_self).symm _ _

end RiscvLab.Library
