/-
  The user library (`user/libc.c`).

  An `int` is an `Int32`: its operations wrap around.
-/
import CcKernel.Lib.CStr

namespace CcKernel

open CStr

/-- The characters of a literal. -/
def str (s : String) : Str := s.toList.map fun c => UInt8.ofNat c.toNat

/-- `*p - '0'` -/
def digit (c : UInt8) : Int32 := Int32.ofNat c.toNat - 48

/-- The loop of `atoi` from `p` on. -/
def atoiLoop (s : Bool) (p : Str) (r : Int32) : Int32 :=
  match p with
  | [] => r
  | c :: p => atoiLoop s p (if s then r * 10 - digit c else r * 10 + digit c)

def atoi (x : Str) : Int32 :=
  match x with
  | 0x2D :: p => atoiLoop true p 0
  | 0x2B :: p => atoiLoop false p 0
  | p => atoiLoop false p 0

def sigTerm : Int32 := 0x00

end CcKernel
