import RiscvOs.Theorems.HeapArea
import RiscvOs.Theorems.Itoa
import RiscvOs.Theorems.Extension
import RiscvOs.Theorems.Window
import RiscvOs.Theorems.Argv
import RiscvOs.Theorems.Registers
import RiscvOs.Theorems.Ownership
import RiscvOs.Theorems.Child
import RiscvOs.Theorems.Wait
import RiscvOs.Theorems.Contents
import RiscvOs.Theorems.Read
import RiscvOs.Theorems.Restart
import RiscvOs.Theorems.Turns
import RiscvOs.Theorems.Transitions
import RiscvOs.Theorems.KernelMap
import RiscvOs.Theorems.Progress
import RiscvOs.Theorems.Blocks
import RiscvOs.Theorems.Rendering
