import LiteSpiH4x.StepMachine.Run
import LiteSpiH4x.StepMachine.Interleaving
import LiteSpiH4x.Digital.ShiftRegister
import LiteSpiH4x.Digital.Width
import LiteSpiH4x.Digital.ClockDomains
import LiteSpiH4x.Digital.ScanChain
import LiteSpiH4x.Digital.TapController
import LiteSpiH4x.ReadPort.Master
import LiteSpiH4x.ReadPort.Burst
import LiteSpiH4x.ReadPort.Ledger
import LiteSpiH4x.ReadPort.Journal
import LiteSpiH4x.ReadPort.Recovery
import LiteSpiH4x.Emu.CmdFsm
import LiteSpiH4x.Emu.FlashEmuMem
import LiteSpiH4x.Emu.FlashEmu
import LiteSpiH4x.Emu.FlashEmuDrive
import LiteSpiH4x.Emu.FlashEmuHistory
import LiteSpiH4x.Emu.FlashEmuRead
import LiteSpiH4x.Emu.FlashEmuQread
import LiteSpiH4x.Emu.FlashDevice
import LiteSpiH4x.Emu.Custody
import LiteSpiH4x.Bench.EmuSim
import LiteSpiH4x.Bench.Drivers
import LiteSpiH4x.Bench.Session
import LiteSpiH4x.Macronix.MX25U25635F
import LiteSpiH4x.Macronix.Transaction
import LiteSpiH4x.Macronix.Agreement
import LiteSpiH4x.Dram.FlashEmuDRAMLite
import LiteSpiH4x.Dram.FlashEmuDRAM
import LiteSpiH4x.Dram.PrefetchFill
import LiteSpiH4x.Dram.BeatLoss
import LiteSpiH4x.Dram.Recovery
import LiteSpiH4x.Dram.Interrupt
import LiteSpiH4x.Dram.Passes
import LiteSpiH4x.Dram.Host
import LiteSpiH4x.Lite.FlashEmuLite
import LiteSpiH4x.Lite.Rdid
import LiteSpiH4x.Lite.Refinement
import LiteSpiH4x.Lite.Handover
import LiteSpiH4x.Lite.Prefetched
import LiteSpiH4x.Lite.Read
import LiteSpiH4x.Lite.ByteSelect
import LiteSpiH4x.Lite.Launches
import LiteSpiH4x.Lite.Deadline
import LiteSpiH4x.Lite.Schedule
import LiteSpiH4x.Lite.InTime
import LiteSpiH4x.Hello.Ticker
import LiteSpiH4x.Hello.JTAGHello
import LiteSpiH4x.Tap.JTAGTAP
import LiteSpiH4x.Tap.Reset
