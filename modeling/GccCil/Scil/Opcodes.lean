/-!
# The dispatch tables

The instruction functions of `scil-pnet.c`, the entries of
`scil-instructions.def` and `scil-extended-instructions.def` with their opcode
numbers, and the arrays that are built from them by position.
-/

namespace GccCil.Scil

inductive Operand where
  | none | byte | uint16 | int32 | int64 | token | shortJump | longJump | switch
  deriving DecidableEq, Repr

/-- The instruction functions `instr_*`. -/
inductive Handler where
  | nop | break_ | ldarg0 | ldarg1 | ldarg2 | ldarg3 | ldloc0 | ldloc1 | ldloc2 | ldloc3
  | stloc0 | stloc1 | stloc2 | stloc3 | ldargS | ldargaS | stargS | ldlocS | ldlocaS | stlocS
  | ldnull | ldcI4M1 | ldcI40 | ldcI41 | ldcI42 | ldcI43 | ldcI44 | ldcI45 | ldcI46 | ldcI47
  | ldcI48 | ldcI4S | ldcI4 | ldcI8 | ldcR4 | ldcR8 | invalid | dup | pop | jmp | call | calli
  | ret | brS | brfalseS | brtrueS | beqS | bgeS | bgtS | bleS | bltS | bneUnS | bgeUnS
  | bgtUnS | bleUnS | bltUnS | br | brfalse | brtrue | beq | bge | bgt | ble | blt | bneUn
  | bgeUn | bgtUn | bleUn | bltUn | switch | ldindI1 | ldindU1 | ldindI2 | ldindU2 | ldindI4
  | ldindU4 | ldindI8 | ldindI | ldindR4 | ldindR8 | ldindRef | stindRef | stindI1 | stindI2
  | stindI4 | stindI8 | stindR4 | stindR8 | add | sub | mul | div | divUn | rem | remUn | and
  | or | xor | shl | shr | shrUn | neg | not | convI1 | convI2 | convI4 | convI8 | convR4
  | convR8 | convU4 | convU8 | callvirt | cpobj | ldobj | ldstr | newobj | castclass | isinst
  | convRUn | unbox | throw | ldfld | ldflda | stfld | ldsfld | ldsflda | stsfld | stobj
  | convOvfI1Un | convOvfI2Un | convOvfI4Un | convOvfI8Un | convOvfU1Un | convOvfU2Un
  | convOvfU4Un | convOvfU8Un | convOvfIUn | convOvfUUn | box | newarr | ldlen | ldelema
  | ldelemI1 | ldelemU1 | ldelemI2 | ldelemU2 | ldelemI4 | ldelemU4 | ldelemI8 | ldelemI
  | ldelemR4 | ldelemR8 | ldelemRef | stelemI | stelemI1 | stelemI2 | stelemI4 | stelemI8
  | stelemR4 | stelemR8 | stelemRef | ldelem | stelem | unboxAny | convOvfI1 | convOvfU1
  | convOvfI2 | convOvfU2 | convOvfI4 | convOvfU4 | convOvfI8 | convOvfU8 | refanyval
  | ckfinite | mkrefany | ldtoken | convU2 | convU1 | convI | convOvfI | convOvfU | addOvf
  | addOvfUn | mulOvf | mulOvfUn | subOvf | subOvfUn | endfinally | leave | leaveS | stindI
  | convU | extended | arglist | ceq | cgt | cgtUn | clt | cltUn | ldftn | ldvirtftn | ldarg
  | ldarga | starg | ldloc | ldloca | stloc | localloc | endfilter | unaligned_ | volatile_
  | tail_ | initobj | cpblk | initblk | rethrow | sizeof | refanytype
  deriving DecidableEq, Repr

/-- `scil-instructions.def`. -/
def instructionsDef : List (Nat × Handler) :=
  [ (0x00, .nop), (0x01, .break_), (0x02, .ldarg0), (0x03, .ldarg1), (0x04, .ldarg2),
    (0x05, .ldarg3), (0x06, .ldloc0), (0x07, .ldloc1), (0x08, .ldloc2), (0x09, .ldloc3),
    (0x0A, .stloc0), (0x0B, .stloc1), (0x0C, .stloc2), (0x0D, .stloc3), (0x0E, .ldargS),
    (0x0F, .ldargaS), (0x10, .stargS), (0x11, .ldlocS), (0x12, .ldlocaS), (0x13, .stlocS),
    (0x14, .ldnull), (0x15, .ldcI4M1), (0x16, .ldcI40), (0x17, .ldcI41), (0x18, .ldcI42),
    (0x19, .ldcI43), (0x1A, .ldcI44), (0x1B, .ldcI45), (0x1C, .ldcI46), (0x1D, .ldcI47),
    (0x1E, .ldcI48), (0x1F, .ldcI4S), (0x20, .ldcI4), (0x21, .ldcI8), (0x22, .ldcR4),
    (0x23, .ldcR8), (0x24, .invalid), (0x25, .dup), (0x26, .pop), (0x27, .jmp), (0x28, .call),
    (0x29, .calli), (0x2A, .ret), (0x2B, .brS), (0x2C, .brfalseS), (0x2D, .brtrueS),
    (0x2E, .beqS), (0x2F, .bgeS), (0x30, .bgtS), (0x31, .bleS), (0x32, .bltS), (0x33, .bneUnS),
    (0x34, .bgeUnS), (0x35, .bgtUnS), (0x36, .bleUnS), (0x37, .bltUnS), (0x38, .br),
    (0x39, .brfalse), (0x3A, .brtrue), (0x3B, .beq), (0x3C, .bge), (0x3D, .bgt), (0x3E, .ble),
    (0x3F, .blt), (0x40, .bneUn), (0x41, .bgeUn), (0x42, .bgtUn), (0x43, .bleUn),
    (0x44, .bltUn), (0x45, .switch), (0x46, .ldindI1), (0x47, .ldindU1), (0x48, .ldindI2),
    (0x49, .ldindU2), (0x4A, .ldindI4), (0x4B, .ldindU4), (0x4C, .ldindI8), (0x4D, .ldindI),
    (0x4E, .ldindR4), (0x4F, .ldindR8), (0x50, .ldindRef), (0x51, .stindRef), (0x52, .stindI1),
    (0x53, .stindI2), (0x54, .stindI4), (0x55, .stindI8), (0x56, .stindR4), (0x57, .stindR8),
    (0x58, .add), (0x59, .sub), (0x5A, .mul), (0x5B, .div), (0x5C, .divUn), (0x5D, .rem),
    (0x5E, .remUn), (0x5F, .and), (0x60, .or), (0x61, .xor), (0x62, .shl), (0x63, .shr),
    (0x64, .shrUn), (0x65, .neg), (0x66, .not), (0x67, .convI1), (0x68, .convI2),
    (0x69, .convI4), (0x6A, .convI8), (0x6B, .convR4), (0x6C, .convR8), (0x6D, .convU4),
    (0x6E, .convU8), (0x6F, .callvirt), (0x70, .cpobj), (0x71, .ldobj), (0x72, .ldstr),
    (0x73, .newobj), (0x74, .castclass), (0x75, .isinst), (0x76, .convRUn), (0x77, .invalid),
    (0x78, .invalid), (0x79, .unbox), (0x7A, .throw), (0x7B, .ldfld), (0x7C, .ldflda),
    (0x7D, .stfld), (0x7E, .ldsfld), (0x7F, .ldsflda), (0x80, .stsfld), (0x81, .stobj),
    (0x82, .convOvfI1Un), (0x83, .convOvfI2Un), (0x84, .convOvfI4Un), (0x85, .convOvfI8Un),
    (0x86, .convOvfU1Un), (0x87, .convOvfU2Un), (0x88, .convOvfU4Un), (0x89, .convOvfU8Un),
    (0x8A, .convOvfIUn), (0x8B, .convOvfUUn), (0x8C, .box), (0x8D, .newarr), (0x8E, .ldlen),
    (0x8F, .ldelema), (0x90, .ldelemI1), (0x91, .ldelemU1), (0x92, .ldelemI2),
    (0x93, .ldelemU2), (0x94, .ldelemI4), (0x95, .ldelemU4), (0x96, .ldelemI8),
    (0x97, .ldelemI), (0x98, .ldelemR4), (0x99, .ldelemR8), (0x9A, .ldelemRef),
    (0x9B, .stelemI), (0x9C, .stelemI1), (0x9D, .stelemI2), (0x9E, .stelemI4),
    (0x9F, .stelemI8), (0xA0, .stelemR4), (0xA1, .stelemR8), (0xA2, .stelemRef),
    (0xA3, .ldelem), (0xA4, .stelem), (0xA5, .unboxAny), (0xA6, .invalid), (0xA7, .invalid),
    (0xA8, .invalid), (0xA9, .invalid), (0xAA, .invalid), (0xAB, .invalid), (0xAC, .invalid),
    (0xAD, .invalid), (0xAE, .invalid), (0xAF, .invalid), (0xB0, .invalid), (0xB1, .invalid),
    (0xB2, .invalid), (0xB3, .convOvfI1), (0xB4, .convOvfU1), (0xB5, .convOvfI2),
    (0xB6, .convOvfU2), (0xB7, .convOvfI4), (0xB8, .convOvfU4), (0xB9, .convOvfI8),
    (0xBA, .convOvfU8), (0xBB, .invalid), (0xBC, .invalid), (0xBD, .invalid), (0xBE, .invalid),
    (0xBF, .invalid), (0xC0, .invalid), (0xC1, .invalid), (0xC2, .refanyval),
    (0xC3, .ckfinite), (0xC4, .invalid), (0xC5, .invalid), (0xC6, .mkrefany), (0xC7, .invalid),
    (0xC8, .invalid), (0xC9, .invalid), (0xCA, .invalid), (0xCB, .invalid), (0xCC, .invalid),
    (0xCD, .invalid), (0xCE, .invalid), (0xCF, .invalid), (0xD0, .ldtoken), (0xD1, .convU2),
    (0xD2, .convU1), (0xD3, .convI), (0xD4, .convOvfI), (0xD5, .convOvfU), (0xD6, .addOvf),
    (0xD7, .addOvfUn), (0xD8, .mulOvf), (0xD9, .mulOvfUn), (0xDA, .subOvf), (0xDB, .subOvfUn),
    (0xDC, .endfinally), (0xDD, .leave), (0xDE, .leaveS), (0xDF, .stindI), (0xE0, .convU),
    (0xE1, .invalid), (0xE2, .invalid), (0xE3, .invalid), (0xE4, .invalid), (0xE5, .invalid),
    (0xE6, .invalid), (0xE7, .invalid), (0xE8, .invalid), (0xE9, .invalid), (0xEA, .invalid),
    (0xEB, .invalid), (0xEC, .invalid), (0xED, .invalid), (0xEE, .invalid), (0xEF, .invalid),
    (0xF0, .invalid), (0xF1, .invalid), (0xF2, .invalid), (0xF3, .invalid), (0xF4, .invalid),
    (0xF5, .invalid), (0xF6, .invalid), (0xF7, .invalid), (0xF8, .invalid), (0xF9, .invalid),
    (0xFA, .invalid), (0xFB, .invalid), (0xFC, .invalid), (0xFD, .invalid), (0xFE, .extended),
    (0xFF, .invalid) ]

/-- `scil-extended-instructions.def`; some numbers have no entry. -/
def extendedInstructionsDef : List (Nat × Handler) :=
  [ (0x00, .arglist), (0x01, .ceq), (0x02, .cgt), (0x03, .cgtUn), (0x04, .clt), (0x05, .cltUn),
    (0x06, .ldftn), (0x07, .ldvirtftn), (0x09, .ldarg), (0x0A, .ldarga), (0x0B, .starg),
    (0x0C, .ldloc), (0x0D, .ldloca), (0x0E, .stloc), (0x0F, .localloc), (0x11, .endfilter),
    (0x12, .unaligned_), (0x13, .volatile_), (0x14, .tail_), (0x15, .initobj), (0x17, .cpblk),
    (0x18, .initblk), (0x1A, .rethrow), (0x1C, .sizeof), (0x1D, .refanytype) ]

/-- `instructions[]`: the functions of the file, one after the other. -/
def instructions : List Handler := instructionsDef.map Prod.snd

/-- `extended_instructions[]`. -/
def extendedInstructions : List Handler := extendedInstructionsDef.map Prod.snd

/-- The operand of each instruction (`pnet/image/opdef.c`); a floating point
constant counts as the integer of its size. -/
def Handler.operand : Handler → Operand
  | .ldargS | .ldargaS | .stargS | .ldlocS | .ldlocaS | .stlocS | .ldcI4S | .unaligned_ => .byte
  | .ldcI4 | .ldcR4 => .int32
  | .ldcI8 | .ldcR8 => .int64
  | .jmp | .call | .calli | .callvirt | .cpobj | .ldobj | .ldstr | .newobj | .castclass
  | .isinst | .unbox | .ldfld | .ldflda | .stfld | .ldsfld | .ldsflda | .stsfld | .stobj | .box
  | .newarr | .ldelema | .ldelem | .stelem | .unboxAny | .refanyval | .mkrefany | .ldtoken
  | .ldftn | .ldvirtftn | .initobj | .sizeof => .token
  | .brS | .brfalseS | .brtrueS | .beqS | .bgeS | .bgtS | .bleS | .bltS | .bneUnS | .bgeUnS
  | .bgtUnS | .bleUnS | .bltUnS | .leaveS => .shortJump
  | .br | .brfalse | .brtrue | .beq | .bge | .bgt | .ble | .blt | .bneUn | .bgeUn | .bgtUn
  | .bleUn | .bltUn | .leave => .longJump
  | .switch => .switch
  | .ldarg | .ldarga | .starg | .ldloc | .ldloca | .stloc => .uint16
  | _ => .none

/-- What an instruction function reads behind the opcode; `none` for one that
only reports its instruction with `sorry` or `error`. -/
def Handler.reads : Handler → Option Operand
  | .ldcR4 | .ldcR8 | .invalid | .jmp | .calli | .switch | .ldindI1 | .ldindU1 | .ldindI2
  | .ldindU2 | .ldindI4 | .ldindU4 | .ldindI8 | .ldindI | .ldindR4 | .ldindR8 | .ldindRef
  | .stindRef | .stindI1 | .stindI2 | .stindI4 | .stindI8 | .stindR4 | .stindR8 | .rem | .cpobj
  | .ldobj | .castclass | .isinst | .convRUn | .unbox | .throw | .stobj | .convOvfI1Un
  | .convOvfI2Un | .convOvfI4Un | .convOvfI8Un | .convOvfU1Un | .convOvfU2Un | .convOvfU4Un
  | .convOvfU8Un | .convOvfIUn | .convOvfUUn | .box | .newarr | .ldlen | .ldelema | .ldelemI1
  | .ldelemU1 | .ldelemI2 | .ldelemU2 | .ldelemI4 | .ldelemU4 | .ldelemI8 | .ldelemI
  | .ldelemR4 | .ldelemR8 | .ldelemRef | .stelemI | .stelemI1 | .stelemI2 | .stelemI4
  | .stelemI8 | .stelemR4 | .stelemR8 | .stelemRef | .ldelem | .stelem | .unboxAny | .convOvfI1
  | .convOvfU1 | .convOvfI2 | .convOvfU2 | .convOvfI4 | .convOvfU4 | .convOvfI8 | .convOvfU8
  | .refanyval | .ckfinite | .mkrefany | .ldtoken | .convOvfI | .convOvfU | .addOvf | .addOvfUn
  | .mulOvf | .mulOvfUn | .subOvf | .subOvfUn | .endfinally | .leave | .leaveS | .stindI
  | .arglist | .localloc | .endfilter | .unaligned_ | .volatile_ | .tail_ | .initobj | .cpblk
  | .initblk | .rethrow | .sizeof | .refanytype => none
  | .ldargS | .ldargaS | .stargS | .ldlocS | .ldlocaS | .stlocS | .ldcI4S => some .byte
  | .ldarg | .ldarga | .starg | .ldloc | .ldloca | .stloc => some .uint16
  | .ldcI4 => some .int32
  | .ldcI8 => some .int64
  | .call | .callvirt | .ldstr | .newobj | .ldfld | .ldflda | .stfld | .ldsfld | .ldsflda
  | .stsfld | .ldftn | .ldvirtftn => some .token
  | .brS | .brfalseS | .brtrueS | .beqS | .bgeS | .bgtS | .bleS | .bltS | .bneUnS | .bgeUnS
  | .bgtUnS | .bleUnS | .bltUnS => some .shortJump
  | .br | .brfalse | .brtrue | .beq | .bge | .bgt | .ble | .blt | .bneUn | .bgeUn | .bgtUn
  | .bleUn | .bltUn => some .longJump
  | _ => some .none

end GccCil.Scil
