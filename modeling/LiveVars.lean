import LiveVars.Profile
import LiveVars.Proofs.BetweenVisits
import LiveVars.Proofs.ExposedReads
import LiveVars.Proofs.Labels
import LiveVars.Proofs.Predecessors
import LiveVars.Proofs.RandomSamples
import LiveVars.Proofs.Recording
import LiveVars.Proofs.RegisterSets
import LiveVars.Proofs.Reports
import LiveVars.Proofs.Rings
import LiveVars.Proofs.Scrambling
import LiveVars.Proofs.Simulation
import LiveVars.Proofs.SinglePass
import LiveVars.Report
import LiveVars.Sample.Random
import LiveVars.Sample.Ring
import LiveVars.ValueSet.Registers
