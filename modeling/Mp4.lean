import Mp4.Cpu.BranchTraining
import Mp4.Cpu.Chooser
import Mp4.Cpu.ControlFlow
import Mp4.Cpu.DestinationWrites
import Mp4.Cpu.FetchAgreement
import Mp4.Cpu.HazardTransparency
import Mp4.Cpu.LoadUseStall
import Mp4.Cpu.LocalHistory
import Mp4.Cpu.PredictionAccuracy
import Mp4.Cpu.Reset
import Mp4.Cpu.SingleInstruction
import Mp4.Cpu.StaleMispredict
import Mp4.Cpu.StoreForwarding
import Mp4.Machine.Testbench
import Mp4.Machine.Timing
import Mp4.Memory.EightWay.FlatMemory
import Mp4.Memory.EightWay.LineTraffic
import Mp4.Memory.EightWay.ReplacementHistory
import Mp4.Memory.FourWay.FlatMemory
import Mp4.Memory.FourWay.MissTraffic
import Mp4.Memory.FourWay.PlruLoop
import Mp4.Memory.FourWay.Representation
import Mp4.Memory.Hierarchy
import Mp4.Memory.LineCodec
import Mp4.Memory.LineMemory
import Mp4.Memory.SetIndependence
import Mp4.Memory.SubWord
import Mp4.Generator.PlruCorrect
import Mp4.Generator.WayDecoding
import Mp4.Generator.WrittenCaches
